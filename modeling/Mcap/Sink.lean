import Mcap.Crc32
import Mcap.McapError

/-! # Streams and the writers stacked on them

`Stream` is the in-memory stream a `Writer` is usually given: bytes and a position.
Its `faults` say which of the calls to come fail and after how many bytes; a stream
that never fails has none.

On top of a stream stand `CountingCrcWriter` of `io_utils.rs`, which counts and hashes
what passes through it, `ChunkSink` of `chunk_sink.rs`, which puts a buffer before the
stream, and `Compressor` of `write.rs`.  The encoders of the `zstd` and `lz4` crates are
the class `Encoders`: they take bytes and emit bytes, and may fail.

The source passes a record to `write_all` in several pieces; here it goes in one.  What
a stream has accepted when a call fails is any part of the bytes either way.  Byte
counts are natural numbers, reduced when they are stored in a 64-bit field.
-/
namespace Mcap

/-- A failed `write_all`: how many bytes were accepted before it failed. -/
structure Fault where
  accepted : Nat
  error : IoError
deriving DecidableEq

/-- `std::io::Write`, as far as the writer uses it. -/
class Write (W : Type) where
  writeAll : W → Bytes → Except (Fault × W) W

/-- `std::io::Seek`, as far as the writer uses it. -/
class Seek (W : Type) where
  streamPosition : W → Except (IoError × W) (Nat × W)
  seekStart : W → Nat → Except (IoError × W) W
  seekEnd : W → Except (IoError × W) W

export Write (writeAll)
export Seek (streamPosition seekStart seekEnd)

/-! ## Streams -/

/-- A stream in memory, and what the calls to come on it do. -/
structure Stream where
  bytes : Bytes
  pos : Nat
  faults : List (Option Fault)
deriving DecidableEq

namespace Stream

/-- An empty stream that never fails. -/
def empty : Stream := ⟨[], 0, []⟩

/-- Whether the next call fails. -/
def poll (s : Stream) : Option Fault × Stream :=
  match s.faults with
  | [] => (none, s)
  | f :: faults => (f, { s with faults })

/-- Write at the position, over what is there; a gap before it is filled with zeros. -/
def put (s : Stream) (b : Bytes) : Stream :=
  { s with
    bytes := (s.bytes ++ List.replicate (s.pos - s.bytes.length) 0).take s.pos ++ b ++
      s.bytes.drop (s.pos + b.length)
    pos := s.pos + b.length }

instance : Write Stream where
  writeAll s b :=
    if b = [] then .ok s
    else
      match s.poll with
      | (none, s) => .ok (s.put b)
      | (some f, s) =>
          let accepted := min f.accepted (b.length - 1)
          .error (⟨accepted, f.error⟩, s.put (b.take accepted))

/-- A call that moves the position, unless it fails. -/
def moved (s : Stream) (pos : Nat) : Except (IoError × Stream) Stream :=
  match s.poll with
  | (none, s) => .ok { s with pos }
  | (some f, s) => .error (f.error, s)

instance : Seek Stream where
  streamPosition s := (s.moved s.pos).map fun s => (s.pos, s)
  seekStart s pos := s.moved pos
  seekEnd s := s.moved s.bytes.length

theorem writeAll_eq (s : Stream) (b : Bytes) : writeAll s b =
    if b = [] then .ok s
    else
      match s.poll with
      | (none, s) => .ok (s.put b)
      | (some f, s) =>
          .error (⟨min f.accepted (b.length - 1), f.error⟩,
            s.put (b.take (min f.accepted (b.length - 1)))) := rfl

theorem streamPosition_eq (s : Stream) :
    streamPosition s = (s.moved s.pos).map fun s => (s.pos, s) := rfl

/-- `Write::flush`. -/
def flush (s : Stream) : Except (IoError × Stream) Stream := s.moved s.pos

end Stream

/-! ## Counting and hashing -/

/-- `CountingCrcWriter`. -/
structure CountingCrcWriter (W : Type) where
  inner : W
  hasher : Option Hasher
  count : Nat
deriving DecidableEq

namespace CountingCrcWriter
variable {W : Type}

/-- `CountingCrcWriter::new`. -/
def new (inner : W) (calculateCrc : Bool) : CountingCrcWriter W where
  inner
  hasher := if calculateCrc then some Hasher.new else none
  count := 0

/-- `CountingCrcWriter::with_hasher`. -/
def withHasher (inner : W) (hasher : Option Hasher) : CountingCrcWriter W where
  inner
  hasher
  count := 0

/-- `CountingCrcWriter::position`. -/
def position (c : CountingCrcWriter W) : Nat := c.count

/-- `CountingCrcWriter::current_checksum`. -/
def currentChecksum (c : CountingCrcWriter W) : UInt32 := (c.hasher.map Hasher.finalize).getD 0

/-- The bytes `b` have gone to the inner writer. -/
def account (c : CountingCrcWriter W) (inner : W) (b : Bytes) : CountingCrcWriter W where
  inner
  hasher := c.hasher.map (·.update b)
  count := c.count + b.length

instance [Write W] : Write (CountingCrcWriter W) where
  writeAll c b :=
    match writeAll c.inner b with
    | .ok inner => .ok (c.account inner b)
    | .error (f, inner) => .error (f, c.account inner (b.take f.accepted))

theorem writeAll_eq [Write W] (c : CountingCrcWriter W) (b : Bytes) : writeAll c b =
    match writeAll c.inner b with
    | .ok inner => .ok (c.account inner b)
    | .error (f, inner) => .error (f, c.account inner (b.take f.accepted)) := rfl

instance [Seek W] : Seek (CountingCrcWriter W) where
  streamPosition c :=
    match streamPosition c.inner with
    | .ok (pos, inner) => .ok (pos, { c with inner })
    | .error (e, inner) => .error (e, { c with inner })
  seekStart c pos :=
    match seekStart c.inner pos with
    | .ok inner => .ok { c with inner }
    | .error (e, inner) => .error (e, { c with inner })
  seekEnd c :=
    match seekEnd c.inner with
    | .ok inner => .ok { c with inner }
    | .error (e, inner) => .error (e, { c with inner })

theorem streamPosition_eq [Seek W] (c : CountingCrcWriter W) : streamPosition c =
    match streamPosition c.inner with
    | .ok (pos, inner) => .ok (pos, { c with inner })
    | .error (e, inner) => .error (e, { c with inner }) := rfl

end CountingCrcWriter

/-! ## Chunk sinks -/

/-- `ChunkMode`. -/
inductive ChunkMode
  | direct
  | buffered (buffer : Bytes)
deriving DecidableEq

/-- `ChunkSink`. -/
structure ChunkSink (W : Type) where
  inner : W
  buffer : Option Stream
deriving DecidableEq

namespace ChunkSink
variable {W : Type}

/-- `ChunkSink::new`: the buffer is reused, empty. -/
def new (inner : W) (mode : ChunkMode) : ChunkSink W where
  inner
  buffer :=
    match mode with
    | .buffered _ => some Stream.empty
    | .direct => none

instance [Write W] : Write (ChunkSink W) where
  writeAll c b :=
    match c.buffer with
    | some buffer =>
        match writeAll buffer b with
        | .ok buffer => .ok { c with buffer := some buffer }
        | .error (f, buffer) => .error (f, { c with buffer := some buffer })
    | none =>
        match writeAll c.inner b with
        | .ok inner => .ok { c with inner }
        | .error (f, inner) => .error (f, { c with inner })

theorem writeAll_eq [Write W] (c : ChunkSink W) (b : Bytes) : writeAll c b =
    match c.buffer with
    | some buffer =>
        match writeAll buffer b with
        | .ok buffer => .ok { c with buffer := some buffer }
        | .error (f, buffer) => .error (f, { c with buffer := some buffer })
    | none =>
        match writeAll c.inner b with
        | .ok inner => .ok { c with inner }
        | .error (f, inner) => .error (f, { c with inner }) := rfl

/-- A call on whichever of the two is written to. -/
def seeking {α : Type} (c : ChunkSink W) (onBuffer : Stream → Except (IoError × Stream) (α × Stream))
    (onInner : W → Except (IoError × W) (α × W)) :
    Except (IoError × ChunkSink W) (α × ChunkSink W) :=
  match c.buffer with
  | some buffer =>
      match onBuffer buffer with
      | .ok (a, buffer) => .ok (a, { c with buffer := some buffer })
      | .error (e, buffer) => .error (e, { c with buffer := some buffer })
  | none =>
      match onInner c.inner with
      | .ok (a, inner) => .ok (a, { c with inner })
      | .error (e, inner) => .error (e, { c with inner })

instance [Seek W] : Seek (ChunkSink W) where
  streamPosition c := c.seeking streamPosition streamPosition
  seekStart c pos := (c.seeking (fun s => (seekStart s pos).map ((), ·))
    (fun w => (seekStart w pos).map ((), ·))).map (·.2)
  seekEnd c := (c.seeking (fun s => (seekEnd s).map ((), ·))
    (fun w => (seekEnd w).map ((), ·))).map (·.2)

theorem streamPosition_eq [Seek W] (c : ChunkSink W) :
    streamPosition c = c.seeking streamPosition streamPosition := rfl

theorem seekStart_eq [Seek W] (c : ChunkSink W) (pos : Nat) :
    seekStart c pos = (c.seeking (fun s => (seekStart s pos).map ((), ·))
      (fun w => (seekStart w pos).map ((), ·))).map (·.2) := rfl

theorem seekEnd_eq [Seek W] (c : ChunkSink W) :
    seekEnd c = (c.seeking (fun s => (seekEnd s).map ((), ·))
      (fun w => (seekEnd w).map ((), ·))).map (·.2) := rfl

/-- `ChunkSink::finish`: a buffer goes to the stream as a whole. -/
def finish [Write W] (c : ChunkSink W) : Except (IoError × W) (W × ChunkMode) :=
  match c.buffer with
  | some buffer =>
      match writeAll c.inner buffer.bytes with
      | .ok inner => .ok (inner, .buffered buffer.bytes)
      | .error (f, inner) => .error (f.error, inner)
  | none => .ok (c.inner, .direct)

end ChunkSink

/-! ## Compressors -/

/-- `Compression`. -/
inductive Compression
  | zstd
  | lz4
deriving DecidableEq

/-- The streaming encoders of the `zstd` and `lz4` crates.  An lz4 encoder emits its
frame header when it is built. -/
class Encoders (σ : Type) where
  newZstd : (level threads : UInt32) → Except IoError σ
  newLz4 : (level : UInt32) → Except IoError (σ × Bytes)
  write : σ → Bytes → Except (IoError × σ) (σ × Bytes)
  finish : σ → Except IoError Bytes

/-- `Compressor`. -/
inductive Compressor (σ W : Type)
  | null (w : W)
  | zstd (encoder : σ) (w : W)
  | lz4 (encoder : σ) (w : W)
deriving DecidableEq

namespace Compressor
variable {σ W : Type} [Encoders σ] [Write W]

/-- Bytes go through an encoder, and what it emits goes on.  `wrap` is the variant. -/
def encode (wrap : σ → W → Compressor σ W) (encoder : σ) (w : W) (b : Bytes) :
    Except (Fault × Compressor σ W) (Compressor σ W) :=
  match Encoders.write encoder b with
  | .error (e, encoder) => .error (⟨0, e⟩, wrap encoder w)
  | .ok (encoder, out) =>
      match writeAll w out with
      | .ok w => .ok (wrap encoder w)
      | .error (f, w) => .error (⟨0, f.error⟩, wrap encoder w)

instance : Write (Compressor σ W) where
  writeAll c b :=
    match c with
    | null w =>
        match writeAll w b with
        | .ok w => .ok (null w)
        | .error (f, w) => .error (f, null w)
    | zstd encoder w => encode zstd encoder w b
    | lz4 encoder w => encode lz4 encoder w b

theorem writeAll_null (w : W) (b : Bytes) : writeAll (null w : Compressor σ W) b =
    match writeAll w b with
    | .ok w => .ok (null w)
    | .error (f, w) => .error (f, null w) := rfl

/-- The end of a compressed stream. -/
def finishEncoder (encoder : σ) (w : W) : Except (IoError × W) W :=
  match Encoders.finish encoder with
  | .error e => .error (e, w)
  | .ok out =>
      match writeAll w out with
      | .ok w => .ok w
      | .error (f, w) => .error (f.error, w)

/-- `Compressor::finish`. -/
def finish : Compressor σ W → Except (IoError × W) W
  | null w => .ok w
  | zstd encoder w => finishEncoder encoder w
  | lz4 encoder w => finishEncoder encoder w

end Compressor
end Mcap
