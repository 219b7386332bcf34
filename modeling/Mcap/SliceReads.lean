import Mcap.FileReading
import Mcap.RecordSlices
import Mcap.Streams

/-! # Reading by an index

`attachment` and `metadata` of `read.rs` take the slice of a file that an index names, and read the
record in it.  The sum of the offset and the length is checked as a debug build does, and a slice
that is out of range panics.

`onlyRecord_of_file` says what is read of a file that has a record at the place of the index, and
nothing else there.
-/
namespace Mcap

/-- Addition of unsigned 64-bit numbers. -/
def checkedAdd (a b : Nat) : Res McapError Nat := if a + b < 2 ^ 64 then .ok (a + b) else .panic

/-- The options of `LinearReader::sans_magic`. -/
def sansMagicOptions (size : Nat) : LinearReaderOptions where
  skipStartMagic := true
  skipEndMagic := true
  recordLengthLimit := some size

/-- `LinearReader::sans_magic` of `read.rs`. -/
def sansMagic {δ : Type} (buf : Bytes) : InnerReader δ where
  buf
  reader := .newWithOptions (sansMagicOptions buf.length)

section
variable {δ α : Type} (D : Decompressor δ)

/-- The only record of a slice, if `pick` takes it.  `none` stands for a reader that has not ended
with this fuel. -/
def onlyRecord (fuel : Nat) (pick : Record → Option α) (buf : Bytes) : Option (Res McapError α) :=
  match (sansMagic buf).next D fuel with
  | .item (.ok record) reader =>
      match pick record with
      | some a =>
          match reader.next D fuel with
          | .item _ _ => some (.err .badIndex)
          | .ended _ => some (.ok a)
          | .panic => some .panic
          | .spin => none
      | none => some (.err .badIndex)
  | .item (.error e) _ => some (.err e)
  | .ended _ => some (.err .badIndex)
  | .panic => some .panic
  | .spin => none

/-- The slice that an index names, if the file has it. -/
def indexedSlice (mcap : Bytes) (offset length : UInt64) : Res McapError Bytes :=
  (checkedAdd offset.toNat length.toNat).bind fun stop =>
    if mcap.length < stop then .err .badIndex else sliceOf mcap offset.toNat stop

/-- A record is read by an index. -/
def readIndexed (fuel : Nat) (pick : Record → Option α) (mcap : Bytes) (offset length : UInt64) :
    Option (Res McapError α) :=
  match indexedSlice mcap offset length with
  | .ok buf => onlyRecord D fuel pick buf
  | .err e => some (.err e)
  | .panic => some .panic

/-- The attachment of a record. -/
def Record.toAttachment? : Record → Option Attachment
  | .attachment h data _ =>
      some
        { logTime := h.logTime
          createTime := h.createTime
          name := h.name
          mediaType := h.mediaType
          data }
  | _ => none

/-- The metadata of a record. -/
def Record.toMetadata? : Record → Option Metadata
  | .metadata m => some m
  | _ => none

/-- `read::attachment`. -/
def attachment (fuel : Nat) (mcap : Bytes) (index : AttachmentIndex) :
    Option (Res McapError Attachment) :=
  readIndexed D fuel Record.toAttachment? mcap index.offset index.length

/-- `read::metadata`. -/
def metadata (fuel : Nat) (mcap : Bytes) (index : MetadataIndex) : Option (Res McapError Metadata) :=
  readIndexed D fuel Record.toMetadata? mcap index.offset index.length

/-- Enough fuel gives `r`. -/
def Eventually (x : Nat → Option (Res McapError α)) (r : Res McapError α) : Prop :=
  ∃ N, ∀ fuel, N ≤ fuel → x fuel = some r

variable {D}

theorem Eventually.unique {x : Nat → Option (Res McapError α)} {r r' : Res McapError α}
    (h : Eventually x r) (h' : Eventually x r') : r = r' := by
  obtain ⟨N, hN⟩ := h
  obtain ⟨M, hM⟩ := h'
  exact Option.some.inj ((hN _ (Nat.le_max_left N M)).symm.trans (hM _ (Nat.le_max_right N M)))

theorem onlyRecord_frame {pick : Record → Option α} {r : Record} {a : α} (hr : r.Plain) (hfits : r.Fits)
    (hmem : r.frame.length ≤ USIZE_MAX) (hpick : pick r = some a) :
    Eventually (fun fuel => onlyRecord D fuel pick r.frame) (.ok a) := by
  have hparses : Parses D (noDecoding D (sansMagicOptions r.frame.length).recordLengthLimit)
      (Spec.init (sansMagicOptions r.frame.length) r.frame) [r.raw] .finished := by
    have hw : Admits (sansMagicOptions r.frame.length) r.body.length := by
      show (if r.body.length > r.frame.length then none else some r.body.length) = _
      rw [Record.frame, length_frame]
      exact if_neg (by omega)
    have hyields : Yields (noDecoding D (sansMagicOptions r.frame.length).recordLengthLimit)
        ⟨.fileRecord, r.frame ++ [], none⟩ [r.raw] _ :=
      yields_record (fun hc => absurd hc hr.1) hr.2.1 hr.2.2 hmem hw
    rw [List.append_nil] at hyields
    refine hyields.parses (.eof ?_)
    rfl
  have hobserves := observes_of_parses hparses (sim_init _ r.frame)
  obtain ⟨s, hfirst, hrest⟩ := InnerReader.front hobserves
  obtain ⟨t, hlast⟩ := InnerReader.front hrest
  rw [parsedItem, parse_body hfits] at hfirst
  obtain ⟨N, hN⟩ := hfirst
  obtain ⟨M, hM⟩ := hlast
  refine ⟨max N M, fun fuel hfuel => ?_⟩
  have h₁ := hN fuel (by omega)
  have h₂ := hM fuel (by omega)
  show onlyRecord D fuel pick r.frame = _
  rw [onlyRecord, sansMagic, h₁]
  simp only [hpick]
  rw [h₂]

/-- **The record at the place of an index is read.** -/
theorem readIndexed_of_file {pick : Record → Option α} {r : Record} {a : α} {pre post : Bytes}
    (hr : r.Plain) (hfits : r.Fits) (hlen : (pre ++ r.frame ++ post).length < 2 ^ 64)
    (hpick : pick r = some a) :
    Eventually (fun fuel => readIndexed D fuel pick (pre ++ r.frame ++ post)
      (.ofNat pre.length) (.ofNat r.frame.length)) (.ok a) := by
  have hsum := hlen
  rw [List.length_append, List.length_append] at hsum
  have hoffset : (UInt64.ofNat pre.length).toNat = pre.length :=
    UInt64.toNat_ofNat_of_lt' (show _ < 2 ^ 64 by omega)
  have hlength : (UInt64.ofNat r.frame.length).toNat = r.frame.length :=
    UInt64.toNat_ofNat_of_lt' (show _ < 2 ^ 64 by omega)
  have hslice : indexedSlice (pre ++ r.frame ++ post) (.ofNat pre.length) (.ofNat r.frame.length) =
      .ok r.frame := by
    rw [indexedSlice, hoffset, hlength, checkedAdd, if_pos (by omega)]
    show (if _ < pre.length + r.frame.length then _ else sliceOf _ pre.length _) = _
    rw [List.length_append, List.length_append, if_neg (by omega),
      sliceOf_eq (by omega) (by rw [List.length_append, List.length_append]; omega),
      List.take_left' (by rw [List.length_append]), List.drop_left]
  simp only [readIndexed, hslice]
  refine onlyRecord_frame hr hfits ?_ hpick
  have husize : USIZE_MAX = 2 ^ 64 - 1 := by decide
  omega

end
end Mcap
