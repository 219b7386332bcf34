import Mcap.Records
import Mcap.Exec

/-! # Errors

`McapError` of `lib.rs`, the length check of `sans_io.rs`, and reading the fields of
a whole body.
-/
namespace Mcap

/-- An I/O error of the underlying stream; its content is the stream's own. -/
structure IoError where
  code : Nat
deriving DecidableEq

/-- `McapError`. -/
inductive McapError
  | attachmentNotInProgress
  | attachmentTooLarge (excess attachmentLength : Nat)
  | attachmentIncomplete (current expected : Nat)
  | badMagic
  | badFooter
  | badAttachmentCrc (saved calculated : UInt32)
  | badChunkCrc (saved calculated : UInt32)
  | badDataCrc (saved calculated : UInt32)
  | badSummaryCrc (saved calculated : UInt32)
  | badIndex
  | badAttachmentLength (header available : Nat)
  | badChunkLength (header available : Nat)
  | badSchemaLength (header available : Nat)
  | privateRecordOpcodeIsReserved (opcode : UInt8)
  | conflictingChannels (topic : String)
  | conflictingSchemas (name : String)
  | parse (e : BinError)
  | io (e : IoError)
  | invalidSchemaId
  | unexpectedEof
  | unexpectedEoc
  | unknownChannel (sequence : UInt32) (channelId : UInt16)
  | unknownSchema (topic : String) (schemaId : UInt16)
  | unsupportedCompression (name : String)
  | decompressionError (name : String)
  | chunkBufferTooLarge (size : Nat)
  | recordTooLarge (opcode : UInt8) (len : Nat)
  | chunkTooLarge (len : Nat)
  | badChunkStartOffset (offset : Nat)
  | tooManyChannels
  | tooManySchemas
  | unexpectedChunkDataInserted
  | attemptedWriteAfterFailure
  | bytesAfterEndMagic
deriving DecidableEq

/-- `usize` is 64 bits wide, as `u64` is. -/
def USIZE_MAX : Nat := 2 ^ 64 - 1

/-- The largest number of bytes a slice, a string or a `Vec` can hold. -/
def ISIZE_MAX : Nat := 2 ^ 63 - 1

/-- `check_len`: a 64-bit length as a `usize`, unless it exceeds the limit. -/
def checkLen (len : Nat) (limit : Option Nat) : Option Nat :=
  match limit with
  | some l => if len > l then none else some len
  | none => some len

@[simp] theorem checkLen_none (len : Nat) : checkLen len none = some len := rfl

theorem checkLen_eq {len n : Nat} {limit : Option Nat} (h : checkLen len limit = some n) :
    n = len := by
  unfold checkLen at h
  split at h
  · split at h
    · cases h
    · exact (Option.some.inj h).symm
  · exact (Option.some.inj h).symm

theorem checkLen_of_le {len : Nat} {limit : Option Nat} (h : ∀ l, limit = some l → len ≤ l) :
    checkLen len limit = some len := by
  cases limit with
  | none => rfl
  | some l => exact if_neg (Nat.not_lt.mpr (h l rfl))

/-- Run a field reader on a whole body. -/
def readLeFrom {α : Type} (p : Read BinError α) (bs : Bytes) : Except McapError (α × Cursor) :=
  match p (Cursor.new bs) with
  | .ok r => .ok r
  | .error e => .error (.parse e)

theorem readLeFrom_eq_ok {α : Type} {p : Read BinError α} {bs : Bytes} {r : α × Cursor}
    (h : readLeFrom p bs = .ok r) : p (Cursor.new bs) = .ok r := by
  unfold readLeFrom at h
  split at h
  · cases h
    assumption
  · cases h

theorem readLeFrom_takes {α : Type} {p : Read BinError α} {n : Nat} (hp : Takes p n) (bs : Bytes) :
    (bs.length < n → ∃ e, readLeFrom p bs = .error e) ∧
      (n ≤ bs.length → ∃ a c, readLeFrom p bs = .ok (a, c)) := by
  obtain ⟨herr, hok⟩ := hp (Cursor.new bs)
  refine ⟨fun h => ?_, fun h => ?_⟩
  · obtain ⟨e, he⟩ := herr h
    exact ⟨.parse e, by rw [readLeFrom, he]⟩
  · obtain ⟨a, ha⟩ := hok h
    exact ⟨a, _, by rw [readLeFrom, ha]⟩

end Mcap
