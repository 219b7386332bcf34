import Mcap.McapError

/-! # The read/write buffer of the streaming readers

`RwBuf` of `linear_reader.rs`: a byte vector with a read cursor `start` and a
write cursor `end`, and an optional hasher that absorbs what is read.  The
cursors are in order by construction, so no slice of the source is out of
range; the assertions of `mark_read`, `mark_written` and `consume` are the
`none` results below.

A client sees the buffer through `unread`, the bytes between the cursors, and
the hasher.  Each operation has one lemma that says what it does to that view;
where the bytes lie in the vector, and when the vector is compacted, is not
visible.
-/
namespace Mcap

/-- `RwBuf`. -/
structure RwBuf where
  data : Bytes
  start : Nat
  end_ : Nat
  hasher : Option Hasher
  start_le : start ≤ end_
  end_le : end_ ≤ data.length

namespace RwBuf

/-- `RwBuf::new`. -/
def new (instantiateHasher : Bool) : RwBuf where
  data := []
  start := 0
  end_ := 0
  hasher := if instantiateHasher then some Hasher.new else none
  start_le := Nat.le_refl _
  end_le := Nat.le_refl _

/-- The length of the unread section. -/
def len (b : RwBuf) : Nat := b.end_ - b.start

/-- The unread section. -/
def unread (b : RwBuf) : Bytes := (b.data.drop b.start).take (b.end_ - b.start)

/-- The unwritten section. -/
def unwritten (b : RwBuf) : Bytes := b.data.drop b.end_

/-- `mark_read`: hash and skip `read` unread bytes. -/
def markRead (b : RwBuf) (read : Nat) : Option RwBuf :=
  if h : read ≤ b.end_ - b.start then
    some { b with
      start := b.start + read
      hasher := b.hasher.map (·.update (b.unread.take read))
      start_le := by have := b.start_le; omega }
  else none

/-- `mark_written`: the first `written` unwritten bytes become unread. -/
def markWritten (b : RwBuf) (written : Nat) : Option RwBuf :=
  if h : written ≤ b.unwritten.length then
    some { b with
      end_ := b.end_ + written
      start_le := by have := b.start_le; omega
      end_le := by
        have := b.end_le
        rw [unwritten, List.length_drop] at h
        omega }
  else none

/-- `Vec::resize` to `n` bytes, filling with zeros. -/
def resize (data : Bytes) (n : Nat) : Bytes := data.take n ++ List.replicate (n - data.length) 0

theorem length_resize (data : Bytes) (n : Nat) : (resize data n).length = n := by
  simp only [resize, List.length_append, List.length_take, List.length_replicate]
  omega

variable {n : Nat} {b : RwBuf} {piece : Bytes}

theorem resize_take {data : Bytes} {k : Nat} (hk : k ≤ n) (hd : k ≤ data.length) :
    (resize data n).take k = data.take k := by
  rw [resize, List.take_append_of_le_length (by rw [List.length_take]; omega), List.take_take,
    Nat.min_eq_left hk]

/-- `reserve_exact`: make room for exactly `additional` bytes after `end`.  The
addition is checked, and a vector cannot outgrow `ISIZE_MAX` bytes. -/
def reserveExact (b : RwBuf) (additional : Nat) : Option RwBuf :=
  if b.end_ + additional ≤ ISIZE_MAX then
    some { b with
      data := resize b.data (b.end_ + additional)
      end_le := by rw [length_resize]; omega }
  else none

/-- The compaction step of `tail_with_size`: `copy_within(start..end, 0)`. -/
def compact (b : RwBuf) : RwBuf where
  data := b.unread ++ b.data.drop b.unread.length
  start := 0
  end_ := b.end_ - b.start
  hasher := b.hasher
  start_le := Nat.zero_le _
  end_le := by
    have h1 := b.start_le
    have h2 := b.end_le
    simp only [unread, List.length_append, List.length_take, List.length_drop]
    omega

/-- Resize the vector to `n` bytes after `end`. -/
def grow (b : RwBuf) (n : Nat) : RwBuf :=
  { b with
    data := resize b.data (b.end_ + n)
    end_le := by rw [length_resize]; omega }

/-- `tail_with_size`: make room for `n` bytes after `end`, moving the unread
bytes to the front when there is enough dead space before them. -/
def tailWithSize (b : RwBuf) (n : Nat) : RwBuf :=
  if b.start > 4096 ∧ b.start > b.end_ - b.start then b.compact.grow n else b.grow n

/-- What a caller does with the slice `tail_with_size` returns: store `piece` at
its front. -/
def fill (b : RwBuf) (piece : Bytes) : RwBuf :=
  { b with
    data := b.data.take b.end_ ++ piece ++ b.data.drop (b.end_ + piece.length)
    end_le := by
      have := b.end_le
      simp only [List.length_append, List.length_take]
      omega }

/-- `clear`, which leaves the hasher alone. -/
def clear (b : RwBuf) : RwBuf where
  data := []
  start := 0
  end_ := 0
  hasher := b.hasher
  start_le := Nat.le_refl _
  end_le := Nat.le_refl _

/-- `consume`: the next `n` unread bytes, marked read. -/
def consume (b : RwBuf) (n : Nat) : Option (Bytes × RwBuf) :=
  (b.markRead n).map (fun b' => (b.unread.take n, b'))

/-- `consume_without_hashing`. -/
def consumeWithoutHashing (b : RwBuf) (n : Nat) : Option (Bytes × RwBuf) :=
  if h : n ≤ b.end_ - b.start then
    some (b.unread.take n, { b with
      start := b.start + n
      start_le := by have := b.start_le; omega })
  else none

/-- Assignment through `hasher_mut`. -/
def setHasher (b : RwBuf) (h : Option Hasher) : RwBuf := { b with hasher := h }

/-! ## The view of a client -/

@[simp] theorem length_unread (b : RwBuf) : b.unread.length = b.len := by
  have h1 := b.start_le
  have h2 := b.end_le
  simp only [unread, len, List.length_take, List.length_drop]
  omega

theorem end_eq (b : RwBuf) : b.end_ = b.start + b.len :=
  (Nat.add_sub_cancel' b.start_le).symm

@[simp] theorem unread_new (h : Bool) : (new h).unread = [] := rfl
@[simp] theorem unread_setHasher (b : RwBuf) (h : Option Hasher) :
    (b.setHasher h).unread = b.unread := rfl
@[simp] theorem hasher_setHasher (b : RwBuf) (h : Option Hasher) : (b.setHasher h).hasher = h := rfl
@[simp] theorem len_setHasher (b : RwBuf) (h : Option Hasher) : (b.setHasher h).len = b.len := rfl
@[simp] theorem unread_clear (b : RwBuf) : b.clear.unread = [] := rfl
@[simp] theorem len_clear (b : RwBuf) : b.clear.len = 0 := rfl
@[simp] theorem hasher_clear (b : RwBuf) : b.clear.hasher = b.hasher := rfl

/-- A buffer stands for its unread bytes and its hasher. -/
structure Shows (b : RwBuf) (bytes : Bytes) (hasher : Option Hasher) : Prop where
  unread : b.unread = bytes
  hasher : b.hasher = hasher

theorem Shows.len {bytes : Bytes} {h : Option Hasher} (hb : b.Shows bytes h) :
    b.len = bytes.length := by
  rw [← length_unread, hb.unread]

theorem shows_self (b : RwBuf) : b.Shows b.unread b.hasher := ⟨rfl, rfl⟩

/-- `mark_read` of at most the unread bytes succeeds, drops them from the view
and absorbs them. -/
theorem markRead_of_le (h : n ≤ b.len) :
    ∃ b', b.markRead n = some b' ∧
      b'.Shows (b.unread.drop n) (b.hasher.map (·.update (b.unread.take n))) ∧
      b'.data = b.data ∧ b'.start = b.start + n ∧ b'.end_ = b.end_ := by
  refine ⟨_, dif_pos h, ⟨?_, rfl⟩, rfl, rfl, rfl⟩
  simp only [RwBuf.unread]
  rw [List.drop_take, List.drop_drop]
  congr 1
  omega

theorem consume_of_le (h : n ≤ b.len) :
    ∃ b', b.consume n = some (b.unread.take n, b') ∧
      b'.Shows (b.unread.drop n) (b.hasher.map (·.update (b.unread.take n))) ∧
      b'.data = b.data ∧ b'.start = b.start + n ∧ b'.end_ = b.end_ := by
  obtain ⟨b', hm, hv⟩ := markRead_of_le h
  exact ⟨b', by rw [consume, hm]; rfl, hv⟩

theorem consumeWithoutHashing_of_le (h : n ≤ b.len) :
    ∃ b', b.consumeWithoutHashing n = some (b.unread.take n, b') ∧
      b'.Shows (b.unread.drop n) b.hasher := by
  refine ⟨_, dif_pos h, ?_, rfl⟩
  simp only [RwBuf.unread]
  rw [List.drop_take, List.drop_drop]
  congr 1
  omega

@[simp] theorem unread_compact (b : RwBuf) : b.compact.unread = b.unread := by
  have h : b.unread.length = b.end_ - b.start := length_unread b
  show ((b.unread ++ b.data.drop b.unread.length).drop 0).take (b.end_ - b.start - 0) = _
  rw [List.drop_zero, Nat.sub_zero, ← h, List.take_left]

/-- Storing `piece` after `end` and marking it written appends it to the view, and
leaves the read cursor and the size of the vector alone. -/
theorem fill_of_le (h : piece.length ≤ b.unwritten.length) :
    ∃ b', (b.fill piece).markWritten piece.length = some b' ∧
      b'.Shows (b.unread ++ piece) b.hasher ∧
      b'.start = b.start ∧ b'.end_ = b.end_ + piece.length ∧ b'.data.length = b.data.length := by
  have h1 := b.start_le
  have h2 := b.end_le
  rw [unwritten, List.length_drop] at h
  have hlen : (b.fill piece).data.length = b.data.length := by
    simp only [fill, List.length_append, List.length_take, List.length_drop]
    omega
  have hroom : piece.length ≤ (b.fill piece).unwritten.length := by
    rw [unwritten, List.length_drop, hlen]
    exact h
  refine ⟨_, dif_pos hroom, ⟨?_, rfl⟩, rfl, rfl, hlen⟩
  show (List.drop b.start (b.data.take b.end_ ++ piece ++
    b.data.drop (b.end_ + piece.length))).take (b.end_ + piece.length - b.start) = _
  rw [List.append_assoc, List.drop_append_of_le_length (by rw [List.length_take]; omega),
    List.drop_take, ← List.append_assoc, List.take_append_of_le_length (by
      simp only [List.length_append, List.length_take, List.length_drop]; omega),
    List.take_of_length_le (by
      simp only [List.length_append, List.length_take, List.length_drop]; omega)]
  rfl

theorem resize_shows (b : RwBuf) (n : Nat) (h : b.end_ ≤ (resize b.data (b.end_ + n)).length) :
    ({ b with data := resize b.data (b.end_ + n), end_le := h } : RwBuf).Shows
      b.unread b.hasher := by
  have h1 := b.start_le
  have h2 := b.end_le
  refine ⟨?_, rfl⟩
  simp only [unread]
  rw [List.take_drop, List.take_drop, Nat.add_sub_cancel' h1, resize_take (by omega) h2]

/-- `reserve_exact` succeeds within the bounds of a vector, and leaves exactly the
room asked for. -/
theorem reserveExact_of_le (h : b.end_ + n ≤ ISIZE_MAX) :
    ∃ b', b.reserveExact n = some b' ∧ b'.Shows b.unread b.hasher ∧
      b'.start = b.start ∧ b'.end_ = b.end_ ∧ b'.data.length = b.end_ + n :=
  ⟨_, if_pos h, resize_shows b n _, rfl, rfl, length_resize _ _⟩

theorem reserveExact_of_lt (h : ISIZE_MAX < b.end_ + n) :
    b.reserveExact n = none := if_neg (by omega)

theorem grow_fill_shows (b : RwBuf) (h : piece.length ≤ n) :
    ∃ b', ((b.grow n).fill piece).markWritten piece.length = some b' ∧
      b'.Shows (b.unread ++ piece) b.hasher := by
  have hs : (b.grow n).Shows b.unread b.hasher := resize_shows b n _
  obtain ⟨b', hb', hv, -⟩ := @fill_of_le (b.grow n) piece (by
    simp only [grow, unwritten, List.length_drop, length_resize]
    omega)
  rw [hs.unread, hs.hasher] at hv
  exact ⟨b', hb', hv⟩

/-- **Feeding a buffer appends to its view**, whatever room was asked for and
whether or not the vector is compacted on the way. -/
theorem feed_shows (b : RwBuf) (h : piece.length ≤ n) :
    ∃ b', ((b.tailWithSize n).fill piece).markWritten piece.length = some b' ∧
      b'.Shows (b.unread ++ piece) b.hasher := by
  unfold tailWithSize
  split
  · have hc := grow_fill_shows b.compact h
    rwa [unread_compact] at hc
  · exact grow_fill_shows b h

end RwBuf
end Mcap
