import Mcap.Streams

/-! # `SummaryReader`

The reader of the summary section.  It does no input of its own: it asks its driver to seek
to the footer, to read it, to seek to where the footer says the summary begins, and to read
from there to the end of the file with a `LinearReader`, whose records it collects.

`nextEvent` is one call, `feed` the answer to a read request (`insert` and `notify_read`), and
`notifySeeked` what the driver says when it has moved, asked to or not.  `drive` is a
driver that can be run, and `Summary::read` is such a driver, with the whole file in memory.

`summaryResult` is what comes of the records of the nested reader, as a function.
-/
namespace Mcap

/-- `FOOTER_RECORD_AND_END_MAGIC`. -/
def FOOTER_RECORD_AND_END_MAGIC : Nat := 37

/-- `SeekFrom`, as far as the reader uses it: from the start, or so many bytes before the end. -/
inductive SeekFrom
  | start (pos : Nat)
  | fromEnd (back : Nat)
deriving DecidableEq

/-- Where the seek leads to in a file of `size` bytes. -/
def SeekFrom.target (size : Nat) : SeekFrom → Nat
  | start pos => pos
  | fromEnd back => size - back

/-- `SummaryReadEvent`. -/
inductive SummaryReadEvent
  | readRequest (n : Nat)
  | seekRequest (seek : SeekFrom)
deriving DecidableEq

/-- `State`. -/
inductive SummaryReader.State (δ : Type)
  | seekingToFooter
  | readingFooter (loadedBytes : Nat)
  | seekingToSummary (summaryStart : Nat)
  | readingSummary (summaryStart : Nat) (reader : LinearReader δ) (channeler : ChannelAccumulator)

/-- `SummaryReader`, with the option that is not kept in `fileSize`. -/
structure SummaryReader (δ : Type) where
  pos : Nat
  footerBuf : Bytes
  fileSize : Option Nat
  state : SummaryReader.State δ
  summary : Summary
  summaryPresent : Bool
  atEof : Bool
  recordLengthLimit : Option Nat

/-- `Vec::resize`, with zeros. -/
def resize (bytes : Bytes) (n : Nat) : Bytes := bytes.take n ++ List.replicate (n - bytes.length) 0

/-- The bytes from the offset `i` on, overwritten. -/
def overwrite (bytes : Bytes) (i : Nat) (piece : Bytes) : Bytes :=
  bytes.take i ++ (piece ++ bytes.drop (i + piece.length))

/-- `compute_record_length_limit`. -/
def computeRecordLengthLimit (pos : Nat) (fileSize recordLengthLimit : Option Nat) : Option Nat :=
  match fileSize.map (· - pos), recordLengthLimit with
  | some remain, some limit => some (min remain limit)
  | some remain, none => some remain
  | none, some limit => some limit
  | none, none => none

/-- The options of the nested reader. -/
def SummaryReader.readerOptions (limit : Option Nat) : LinearReaderOptions where
  skipStartMagic := true
  recordLengthLimit := limit

/-- The footer in the last bytes of the file, of which `loaded` are in the buffer. -/
def SummaryReader.parseFooter (footerBuf : Bytes) (loaded : Nat) : Except McapError Footer :=
  let opcode := footerBuf.headD 0
  let footerBody := (footerBuf.drop 9).take (FOOTER_RECORD_AND_END_MAGIC - 8 - 9)
  let endMagic := (footerBuf.take loaded).drop (FOOTER_RECORD_AND_END_MAGIC - 8)
  if endMagic ≠ MAGIC then .error .badMagic
  else if opcode ≠ op.FOOTER then .error .badFooter
  else (·.1) <$> readLeFrom Footer.read footerBody

/-- A record of the summary section. -/
def Summary.collect (summary : Summary) (channeler : ChannelAccumulator) :
    Record → Except McapError (Summary × ChannelAccumulator)
  | .attachmentIndex index =>
      .ok ({ summary with attachmentIndexes := summary.attachmentIndexes ++ [index] }, channeler)
  | .metadataIndex index =>
      .ok ({ summary with metadataIndexes := summary.metadataIndexes ++ [index] }, channeler)
  | .statistics statistics => .ok ({ summary with stats := some statistics }, channeler)
  | .channel channel => (fun channeler => (summary, channeler)) <$> channeler.addChannel channel
  | .schema header data => (fun channeler => (summary, channeler)) <$> channeler.addSchema header data
  | .chunkIndex index =>
      .ok ({ summary with chunkIndexes := summary.chunkIndexes ++ [index] }, channeler)
  | _ => .ok (summary, channeler)

/-- The summary at the end of the section. -/
def Summary.complete (summary : Summary) (channeler : ChannelAccumulator) : Summary :=
  { summary with schemas := channeler.schemas, channels := channeler.channels }

namespace SummaryReader
variable {δ : Type}

/-- `SummaryReader::new_with_options`. -/
def newWithOptions (fileSize recordLengthLimit : Option Nat) : SummaryReader δ where
  pos := 0
  footerBuf := []
  fileSize
  state := .seekingToFooter
  summary := .empty
  summaryPresent := false
  atEof := false
  recordLengthLimit

/-- `SummaryReader::new`. -/
def new : SummaryReader δ := newWithOptions none none

/-- `next_event_inner`. -/
def nextEvent (D : Decompressor δ) :
    Nat → SummaryReader δ → Next (SummaryReader δ) (Except McapError SummaryReadEvent)
  | 0, _ => .spin
  | fuel + 1, s =>
      match s.state with
      | .seekingToFooter =>
          match s.fileSize with
          | none => .item (.ok (.seekRequest (.fromEnd FOOTER_RECORD_AND_END_MAGIC))) s
          | some fileSize =>
              if fileSize < FOOTER_RECORD_AND_END_MAGIC + 8 then .item (.error .unexpectedEof) s
              else if s.pos = fileSize - FOOTER_RECORD_AND_END_MAGIC then
                nextEvent D fuel { s with state := .readingFooter 0 }
              else .item (.ok (.seekRequest (.start (fileSize - FOOTER_RECORD_AND_END_MAGIC)))) s
      | .readingFooter loaded =>
          if loaded ≥ FOOTER_RECORD_AND_END_MAGIC then
            match parseFooter s.footerBuf loaded with
            | .error e => .item (.error e) s
            | .ok footer =>
                if footer.summaryStart = 0 then .ended s
                else
                  nextEvent D fuel { s with
                    summaryPresent := true
                    state := .seekingToSummary footer.summaryStart.toNat }
          else if s.atEof then .item (.error .unexpectedEof) s
          else .item (.ok (.readRequest (FOOTER_RECORD_AND_END_MAGIC - loaded))) s
      | .seekingToSummary summaryStart =>
          if s.pos = summaryStart then
            let limit := computeRecordLengthLimit s.pos s.fileSize s.recordLengthLimit
            nextEvent D fuel { s with
              state := .readingSummary summaryStart (.newWithOptions (readerOptions limit)) .empty }
          else .item (.ok (.seekRequest (.start summaryStart))) s
      | .readingSummary summaryStart reader channeler =>
          match reader.nextEvent D (fuel + 1) with
          | .ret reader (some (.ok (.record opcode data))) =>
              let s := { s with state := .readingSummary summaryStart reader channeler }
              match parseRecord opcode data with
              | .panic => .panic
              | .err e => .item (.error e) s
              | .ok record =>
                  match s.summary.collect channeler record with
                  | .error e => .item (.error e) s
                  | .ok (summary, channeler) =>
                      nextEvent D fuel { s with
                        summary
                        state := .readingSummary summaryStart reader channeler }
          | .ret reader (some (.ok (.readRequest n))) =>
              .item (.ok (.readRequest n))
                { s with state := .readingSummary summaryStart reader channeler }
          | .ret reader (some (.error e)) =>
              .item (.error e) { s with state := .readingSummary summaryStart reader channeler }
          | .ret reader none =>
              .ended { s with
                summary := s.summary.complete channeler
                state := .readingSummary summaryStart reader channeler }
          | .panic => .panic
          | .spin => .spin

/-- `insert(n)`, a read that puts `piece` at the front of the slice, and
`notify_read(piece.len())`.  `none` is a panic: `piece` is longer than `n`. -/
def feed (s : SummaryReader δ) (n : Nat) (piece : Bytes) : Option (SummaryReader δ) :=
  let s := { s with atEof := piece.length = 0 }
  match s.state with
  | .readingFooter loaded =>
      if piece.length ≤ n then
        some { s with
          footerBuf := overwrite (resize s.footerBuf (loaded + n)) loaded piece
          state := .readingFooter (loaded + piece.length)
          pos := s.pos + piece.length }
      else none
  | .readingSummary summaryStart reader channeler =>
      match reader.feed n piece with
      | none => none
      | some reader =>
          some { s with
            state := .readingSummary summaryStart reader channeler
            pos := s.pos + piece.length }
  | _ =>
      if piece.length ≤ n then
        some { s with
          footerBuf := overwrite (resize s.footerBuf n) 0 piece
          pos := s.pos + piece.length }
      else none

/-- `notify_seeked`. -/
def notifySeeked (s : SummaryReader δ) (pos : Nat) : SummaryReader δ :=
  let s := if s.atEof ∧ s.pos ≠ pos then { s with atEof := false } else s
  let s :=
    if s.fileSize.isNone then { s with fileSize := some (pos + FOOTER_RECORD_AND_END_MAGIC) } else s
  let s :=
    if s.pos ≠ pos then
      match s.state with
      | .readingFooter _ => { s with footerBuf := [], state := .seekingToFooter }
      | .readingSummary summaryStart _ _ =>
          { s with state := .seekingToSummary summaryStart, summary := .empty }
      | _ => s
    else s
  { s with pos }

/-- `finish`. -/
def finish (s : SummaryReader δ) : Option Summary := if s.summaryPresent then some s.summary else none

end SummaryReader

section
variable {δ : Type} (D : Decompressor δ)

/-- How a driver with its `cursor` in the file answers an event: a request for `n` bytes with up
to `room n` of them.  `k` goes round the loop again. -/
def SummaryReader.answer (room : Nat → Nat) (mcap : Bytes)
    (k : SummaryReader δ → Nat → Option (Res McapError (Option Summary))) (s : SummaryReader δ)
    (cursor : Nat) : SummaryReadEvent → Option (Res McapError (Option Summary))
  | .readRequest n =>
      let read := (mcap.drop cursor).take (room n)
      match s.feed (room n) read with
      | none => some .panic
      | some s => k s (cursor + read.length)
  | .seekRequest seek =>
      let pos := seek.target mcap.length
      k (s.notifySeeked pos) pos

/-- The loop of a driver.  `none`: the fuel has run out. -/
def SummaryReader.drive (room : Nat → Nat) (mcap : Bytes) :
    Nat → SummaryReader δ → Nat → Option (Res McapError (Option Summary))
  | 0, _, _ => none
  | fuel + 1, s, cursor =>
      match s.nextEvent D (fuel + 1) with
      | .item (.ok event) s => SummaryReader.answer room mcap (drive room mcap fuel) s cursor event
      | .item (.error e) _ => some (.err e)
      | .ended s => some (.ok s.finish)
      | .panic => some .panic
      | .spin => none

/-- `Summary::read`: the driver that knows the size of the file and reads what it is asked to. -/
def Summary.read (fuel : Nat) (mcap : Bytes) : Option (Res McapError (Option Summary)) :=
  SummaryReader.drive D (fun n => n) mcap fuel (SummaryReader.newWithOptions (some mcap.length) none) 0

/-- `Summary::read` comes to `R`: enough fuel gives it. -/
def Summary.Reads (mcap : Bytes) (R : Res McapError (Option Summary)) : Prop :=
  ∃ N, ∀ fuel, N ≤ fuel → Summary.read D fuel mcap = some R

end

/-! ## What comes of the records -/

/-- **What comes of the records of the summary section**, and of how they end. -/
def summaryResult :
    Summary → ChannelAccumulator → List (UInt8 × Bytes) → Final → Res McapError (Option Summary)
  | summary, channeler, [], .finished => .ok (some (summary.complete channeler))
  | _, _, [], .failed e => .err e
  | _, _, [], .panicked => .panic
  | summary, channeler, (opcode, data) :: evs, fin =>
      match parseRecord opcode data with
      | .panic => .panic
      | .err e => .err e
      | .ok record =>
          match summary.collect channeler record with
          | .error e => .err e
          | .ok (summary, channeler) => summaryResult summary channeler evs fin

/-- The footer of a file, as the reader finds it. -/
def lastFooter (mcap : Bytes) : Except McapError Footer :=
  if mcap.length < FOOTER_RECORD_AND_END_MAGIC + 8 then .error .unexpectedEof
  else
    SummaryReader.parseFooter (mcap.drop (mcap.length - FOOTER_RECORD_AND_END_MAGIC))
      FOOTER_RECORD_AND_END_MAGIC

theorem SummaryReader.parseFooter_congr {a b : Bytes}
    (h : a.take FOOTER_RECORD_AND_END_MAGIC = b.take FOOTER_RECORD_AND_END_MAGIC) :
    SummaryReader.parseFooter a FOOTER_RECORD_AND_END_MAGIC =
      SummaryReader.parseFooter b FOOTER_RECORD_AND_END_MAGIC := by
  have hhead : a.headD 0 = b.headD 0 := by
    cases a <;> cases b <;> simp_all [FOOTER_RECORD_AND_END_MAGIC]
  have hbody : (a.drop 9).take (FOOTER_RECORD_AND_END_MAGIC - 8 - 9) =
      (b.drop 9).take (FOOTER_RECORD_AND_END_MAGIC - 8 - 9) := by
    have hdrop := congrArg (fun xs => (xs.drop 9).take (FOOTER_RECORD_AND_END_MAGIC - 8 - 9)) h
    simpa [FOOTER_RECORD_AND_END_MAGIC, List.drop_take, List.take_take] using hdrop
  unfold SummaryReader.parseFooter
  simp only [h, hhead, hbody]

theorem length_resize (bytes : Bytes) (n : Nat) : (resize bytes n).length = n := by
  simp only [resize, List.length_append, List.length_take, List.length_replicate]
  omega

theorem take_resize {bytes : Bytes} {i n : Nat} (hi : i ≤ bytes.length) (hn : i ≤ n) :
    (resize bytes n).take i = bytes.take i := by
  rw [resize, List.take_append_of_le_length (by rw [List.length_take]; omega), List.take_take,
    Nat.min_eq_left hn]

theorem take_overwrite {bytes piece : Bytes} {i : Nat} (hi : i ≤ bytes.length) :
    (overwrite bytes i piece).take (i + piece.length) = bytes.take i ++ piece := by
  rw [overwrite, ← List.append_assoc]
  refine List.take_left' ?_
  rw [List.length_append, List.length_take, Nat.min_eq_left hi]

end Mcap
