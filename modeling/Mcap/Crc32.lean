import Mcap.ByteCodec

/-! # CRC-32

The CRC-32 of zip and Ethernet, bit by bit over the reflected polynomial, and
the streaming hasher built on it.  The hasher of the `crc32fast` crate is taken
at its documented behaviour: a hasher stands for the bytes it has absorbed, so
that a sequence of updates hashes the concatenation of the pieces and `combine`
hashes the concatenation of the two inputs.
-/
namespace Mcap

/-- One bit of the CRC register: shift, and subtract the polynomial on a carry. -/
def crcBit (c : UInt32) : UInt32 :=
  if c &&& 1 = 1 then (c >>> 1) ^^^ 0xEDB88320 else c >>> 1

/-- One byte of input. -/
def crcByte (c : UInt32) (b : UInt8) : UInt32 :=
  Nat.repeat crcBit 8 (c ^^^ b.toUInt32)

/-- The CRC-32 of a byte string. -/
def crc32 (bs : Bytes) : UInt32 := ~~~ bs.foldl crcByte 0xFFFFFFFF

example : crc32 [49, 50, 51, 52, 53, 54, 55, 56, 57] = 0xCBF43926 := by decide +kernel

/-- `crc32fast::Hasher`, as the bytes absorbed so far. -/
structure Hasher where
  absorbed : Bytes
deriving DecidableEq

namespace Hasher

/-- A hasher that has absorbed nothing. -/
def new : Hasher := ⟨[]⟩

/-- Absorb more bytes. -/
def update (h : Hasher) (bs : Bytes) : Hasher := ⟨h.absorbed ++ bs⟩

/-- Absorb everything another hasher has absorbed. -/
def combine (h other : Hasher) : Hasher := ⟨h.absorbed ++ other.absorbed⟩

/-- The checksum of the absorbed bytes. -/
def finalize (h : Hasher) : UInt32 := crc32 h.absorbed

@[simp] theorem new_absorbed : new.absorbed = [] := rfl

@[simp] theorem update_absorbed (h : Hasher) (bs : Bytes) :
    (h.update bs).absorbed = h.absorbed ++ bs := rfl

@[simp] theorem combine_absorbed (h other : Hasher) :
    (h.combine other).absorbed = h.absorbed ++ other.absorbed := rfl

@[simp] theorem update_nil (h : Hasher) : h.update [] = h := by
  cases h; simp [update]

@[simp] theorem update_update (h : Hasher) (a b : Bytes) :
    (h.update a).update b = h.update (a ++ b) := by
  simp [update]

end Hasher
end Mcap
