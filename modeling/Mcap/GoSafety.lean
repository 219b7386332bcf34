import Mcap.GoIndexed

/-! # When the Go readers panic

**Parsers.**  A parser that walks over its buffer by offsets never leaves it: each accessor fails
where too few bytes are left (`Within`).  `ParseChunk` alone slices out of its buffer unchecked.

**The lexer.**  A turn panics on the name of a compression that does not fit into the buffer of 32
bytes, and on a chunk to be validated of which the doubled size is cut off at 64 bits.  A turn that
goes on brings the lexer nearer to the end of its input (`Nearer`), except where an attachment of a
length of 63 bits or more sends a reader that can seek backwards.

**The iterators.**  The unindexed iterator adds nothing to that.  The indexed iterator reads chunks
of its own, and its buffers are as large as the file says; `Sound` says that every message index
that is left to be read points at a record of the chunk in its slot.
-/
namespace Mcap
namespace Go

theorem ok_ne_panic {α : Type} (a : α) : (.ok a : Res Error α) ≠ .panic := by
  rintro ⟨⟩

theorem err_ne_panic {α : Type} (e : Error) : (.err e : Res Error α) ≠ .panic := by
  rintro ⟨⟩

/-! ## Parsers -/

section
variable {α β : Type} {n : Nat} {buf : Bytes} {offset : Nat} {context : String}
  {x : Res Error (α × Nat)}

/-- No panic, and an offset that is not past the end. -/
def Within (n : Nat) (x : Res Error (α × Nat)) : Prop :=
  x ≠ .panic ∧ ∀ a offset, x = .ok (a, offset) → offset ≤ n

theorem within_ok {a : α} (h : offset ≤ n) : Within n (.ok (a, offset) : Res Error (α × Nat)) := by
  refine ⟨ok_ne_panic _, fun a' offset' heq => ?_⟩
  cases heq
  exact h

theorem within_err (e : Error) : Within n (.err e : Res Error (α × Nat)) :=
  ⟨err_ne_panic e, by rintro _ _ ⟨⟩⟩

theorem Within.wrap (h : Within n x) : Within n (wrap context x) := by
  cases x with
  | ok p => exact h
  | err e => exact within_err _
  | panic => exact h

theorem Within.bind {f : α × Nat → Res Error (β × Nat)} {n' : Nat} (h : Within n x)
    (hf : ∀ a offset, offset ≤ n → Within n' (f (a, offset))) :
    Within n' (x >>= f) := by
  cases x with
  | ok p => exact hf p.1 p.2 (h.2 _ _ rfl)
  | err e => exact within_err e
  | panic => exact absurd rfl h.1

theorem Within.ne_panic {f : α × Nat → Res Error β} (h : Within n x)
    (hf : ∀ a offset, offset ≤ n → f (a, offset) ≠ .panic) : (x >>= f) ≠ .panic := by
  cases x with
  | ok p => exact hf p.1 p.2 (h.2 _ _ rfl)
  | err e => exact err_ne_panic e
  | panic => exact absurd rfl h.1

theorem within_getUint (w : Nat) (buf : Bytes) (offset : Nat) :
    Within buf.length (getUint w buf offset) := by
  unfold getUint
  by_cases hshort : buf.length < offset + w
  · rw [if_pos hshort]
    exact within_err _
  · rw [if_neg hshort]
    exact within_ok (by omega)

theorem within_getUint16 (buf : Bytes) (offset : Nat) :
    Within buf.length (getUint16 buf offset) :=
  (within_getUint 2 buf offset).bind fun _ _ hle => within_ok hle

theorem within_getUint32 (buf : Bytes) (offset : Nat) :
    Within buf.length (getUint32 buf offset) :=
  (within_getUint 4 buf offset).bind fun _ _ hle => within_ok hle

theorem within_getUint64 (buf : Bytes) (offset : Nat) :
    Within buf.length (getUint64 buf offset) :=
  (within_getUint 8 buf offset).bind fun _ _ hle => within_ok hle

theorem within_getPrefixedString (h : offset ≤ buf.length) :
    Within buf.length (getPrefixedString buf offset) := by
  unfold getPrefixedString
  rw [if_neg (by omega)]
  by_cases hshort : (buf.drop offset).length < 4
  · rw [if_pos hshort]
    exact within_err _
  · rw [if_neg hshort]
    simp only
    split
    · exact within_err _
    · rw [List.length_drop] at hshort
      apply within_ok
      rename_i hlong
      rw [List.length_drop] at hlong
      omega

theorem within_loop {more : Nat → Bool} {step : β → Nat → Res Error (β × Nat)}
    (hstep : ∀ b offset, offset ≤ n → Within n (step b offset)) (fuel : Nat) (b : β)
    (h : offset ≤ n) : Within n (loop more step fuel b offset) := by
  induction fuel generalizing b offset with
  | zero => exact within_ok h
  | succ fuel ih =>
    rw [loop]
    split
    · exact (hstep b offset h).bind fun b' offset' hle => ih b' hle
    · exact within_ok h

theorem within_getPrefixedMap (buf : Bytes) (offset : Nat) :
    Within buf.length (getPrefixedMap buf offset) := by
  unfold getPrefixedMap
  refine (within_getUint32 buf offset).wrap.bind fun maplen start hstart => ?_
  refine Within.bind (n := (buf.drop start).length)
    (within_loop (fun m inset hle => ?_) _ ∅ (Nat.zero_le _)) fun m inset hle => ?_
  · refine (within_getPrefixedString hle).wrap.bind fun key inset hle => ?_
    exact (within_getPrefixedString hle).wrap.bind fun value inset hle => within_ok hle
  · rw [List.length_drop] at hle
    exact within_ok (by omega)

theorem within_getChannelEntries {ctxKey ctxValue : String} (start length : Nat)
    (h : start ≤ buf.length) :
    Within buf.length (getChannelEntries ctxKey ctxValue buf start length) := by
  unfold getChannelEntries
  refine within_loop (fun m offset _ => ?_) _ _ h
  refine (within_getUint16 buf offset).wrap.bind fun channelID offset _ => ?_
  exact (within_getUint64 buf offset).wrap.bind fun value offset hle => within_ok hle

end

theorem parseFooter_ne_panic (buf : Bytes) : parseFooter buf ≠ .panic := by
  unfold parseFooter
  refine (within_getUint64 buf 0).wrap.ne_panic fun _ offset _ => ?_
  refine (within_getUint64 buf offset).wrap.ne_panic fun _ offset _ => ?_
  exact (within_getUint32 buf offset).wrap.ne_panic fun _ _ _ => ok_ne_panic _

theorem parseSchema_ne_panic (buf : Bytes) : parseSchema buf ≠ .panic := by
  unfold parseSchema
  refine (within_getUint16 buf 0).wrap.ne_panic fun _ offset hle => ?_
  refine (within_getPrefixedString hle).wrap.ne_panic fun _ offset hle => ?_
  refine (within_getPrefixedString hle).wrap.ne_panic fun _ offset hle => ?_
  exact (within_getPrefixedString hle).wrap.ne_panic fun _ _ _ => ok_ne_panic _

theorem parseChannel_ne_panic (buf : Bytes) : parseChannel buf ≠ .panic := by
  unfold parseChannel
  refine (within_getUint16 buf 0).wrap.ne_panic fun _ offset _ => ?_
  refine (within_getUint16 buf offset).wrap.ne_panic fun _ offset hle => ?_
  refine (within_getPrefixedString hle).wrap.ne_panic fun _ offset hle => ?_
  refine (within_getPrefixedString hle).wrap.ne_panic fun _ offset hle => ?_
  exact (within_getPrefixedMap buf _).wrap.ne_panic fun _ _ _ => ok_ne_panic _

theorem parseMessage_ne_panic (buf : Bytes) : parseMessage buf ≠ .panic := by
  unfold parseMessage
  refine (within_getUint16 buf 0).wrap.ne_panic fun _ offset _ => ?_
  refine (within_getUint32 buf offset).wrap.ne_panic fun _ offset _ => ?_
  refine (within_getUint64 buf offset).wrap.ne_panic fun _ offset _ => ?_
  refine (within_getUint64 buf offset).wrap.ne_panic fun _ offset hle => ?_
  show (if buf.length < offset then _ else _) ≠ _
  rw [if_neg (by omega)]
  exact ok_ne_panic _

theorem parseMessageIndex_ne_panic (buf : Bytes) : parseMessageIndex buf ≠ .panic := by
  unfold parseMessageIndex
  refine (within_getUint16 buf 0).wrap.ne_panic fun _ offset _ => ?_
  refine (within_getUint32 buf offset).wrap.ne_panic fun entriesByteLength start hle => ?_
  refine Within.ne_panic (n := buf.length) ?_ fun _ _ _ => ok_ne_panic _
  refine within_loop (fun records offset _ => ?_) _ _ hle
  refine (within_getUint64 buf offset).wrap.bind fun _ offset _ => ?_
  exact (within_getUint64 buf offset).wrap.bind fun _ offset hle => within_ok hle

theorem parseChunkIndex_ne_panic (buf : Bytes) : parseChunkIndex buf ≠ .panic := by
  unfold parseChunkIndex
  refine (within_getUint64 buf 0).wrap.ne_panic fun _ offset _ => ?_
  refine (within_getUint64 buf offset).wrap.ne_panic fun _ offset _ => ?_
  refine (within_getUint64 buf offset).wrap.ne_panic fun _ offset _ => ?_
  refine (within_getUint64 buf offset).wrap.ne_panic fun _ offset _ => ?_
  refine (within_getUint32 buf offset).wrap.ne_panic fun _ offset _ => ?_
  refine (within_getChannelEntries 0 _ (Nat.zero_le _)).ne_panic fun _ inset _ => ?_
  refine (within_getUint64 buf (offset + inset)).wrap.ne_panic fun _ offset hle => ?_
  refine (within_getPrefixedString hle).wrap.ne_panic fun _ offset _ => ?_
  refine (within_getUint64 buf offset).wrap.ne_panic fun _ offset _ => ?_
  exact (within_getUint64 buf offset).wrap.ne_panic fun _ _ _ => ok_ne_panic _

theorem parseAttachmentIndex_ne_panic (buf : Bytes) : parseAttachmentIndex buf ≠ .panic := by
  unfold parseAttachmentIndex
  refine (within_getUint64 buf 0).wrap.ne_panic fun _ offset _ => ?_
  refine (within_getUint64 buf offset).wrap.ne_panic fun _ offset _ => ?_
  refine (within_getUint64 buf offset).wrap.ne_panic fun _ offset _ => ?_
  refine (within_getUint64 buf offset).wrap.ne_panic fun _ offset _ => ?_
  refine (within_getUint64 buf offset).wrap.ne_panic fun _ offset hle => ?_
  refine (within_getPrefixedString hle).wrap.ne_panic fun _ offset hle => ?_
  exact (within_getPrefixedString hle).wrap.ne_panic fun _ _ _ => ok_ne_panic _

theorem parseStatistics_ne_panic (buf : Bytes) : parseStatistics buf ≠ .panic := by
  unfold parseStatistics
  split
  · exact err_ne_panic _
  · refine (within_getUint64 buf 0).wrap.ne_panic fun _ offset _ => ?_
    refine (within_getUint16 buf offset).wrap.ne_panic fun _ offset _ => ?_
    refine (within_getUint32 buf offset).wrap.ne_panic fun _ offset _ => ?_
    refine (within_getUint32 buf offset).wrap.ne_panic fun _ offset _ => ?_
    refine (within_getUint32 buf offset).wrap.ne_panic fun _ offset _ => ?_
    refine (within_getUint32 buf offset).wrap.ne_panic fun _ offset _ => ?_
    refine (within_getUint64 buf offset).wrap.ne_panic fun _ offset _ => ?_
    refine (within_getUint64 buf offset).wrap.ne_panic fun _ offset _ => ?_
    refine (within_getUint32 buf offset).wrap.ne_panic fun length start hle => ?_
    show (if buf.length < start + length.toNat then _ else _) ≠ _
    split
    · exact err_ne_panic _
    · exact (within_getChannelEntries start _ hle).ne_panic fun _ _ _ => ok_ne_panic _

theorem parseMetadata_ne_panic (buf : Bytes) : parseMetadata buf ≠ .panic := by
  unfold parseMetadata
  refine (within_getPrefixedString (Nat.zero_le _)).wrap.ne_panic fun _ offset hle => ?_
  exact (within_getPrefixedMap buf _).wrap.ne_panic fun _ _ _ => ok_ne_panic _

theorem parseMetadataIndex_ne_panic (buf : Bytes) : parseMetadataIndex buf ≠ .panic := by
  unfold parseMetadataIndex
  refine (within_getUint64 buf 0).wrap.ne_panic fun _ offset _ => ?_
  refine (within_getUint64 buf offset).wrap.ne_panic fun _ offset hle => ?_
  exact (within_getPrefixedString hle).wrap.ne_panic fun _ _ _ => ok_ne_panic _

/-! ### Chunks -/

section
variable {β : Type} {buf : Bytes} {context : String} {r : Res Error β}

theorem bind_getUint64_eq {f : UInt64 × Nat → Res Error β} (hr : ∀ e, .err e ≠ r) (offset : Nat) :
    (wrap context (getUint64 buf offset) >>= f) = r ↔
      offset + 8 ≤ buf.length ∧
        f (.ofNat (ofLe ((buf.drop offset).take 8)), offset + 8) = r := by
  unfold getUint64 getUint
  by_cases hshort : buf.length < offset + 8
  · rw [if_pos hshort]
    exact ⟨fun h => absurd h (hr _), fun h => by omega⟩
  · rw [if_neg hshort]
    exact ⟨fun h => ⟨by omega, h⟩, fun h => h.2⟩

theorem bind_getUint32_eq {f : UInt32 × Nat → Res Error β} (hr : ∀ e, .err e ≠ r) (offset : Nat) :
    (wrap context (getUint32 buf offset) >>= f) = r ↔
      offset + 4 ≤ buf.length ∧
        f (.ofNat (ofLe ((buf.drop offset).take 4)), offset + 4) = r := by
  unfold getUint32 getUint
  by_cases hshort : buf.length < offset + 4
  · rw [if_pos hshort]
    exact ⟨fun h => absurd h (hr _), fun h => by omega⟩
  · rw [if_neg hshort]
    exact ⟨fun h => ⟨by omega, h⟩, fun h => h.2⟩

theorem bind_getPrefixedString_eq {f : Bytes × Nat → Res Error β} (hr : ∀ e, .err e ≠ r)
    {offset n : Nat} (hle : offset ≤ buf.length) (hn : ofLe ((buf.drop offset).take 4) = n) :
    (wrap context (getPrefixedString buf offset) >>= f) = r ↔
      offset + 4 + n ≤ buf.length ∧
        f ((buf.drop (offset + 4)).take n, offset + 4 + n) = r := by
  unfold getPrefixedString
  rw [if_neg (by omega), List.length_drop, List.length_drop, hn]
  by_cases hshort : buf.length - offset < 4
  · rw [if_pos hshort]
    exact ⟨fun h => absurd h (hr _), fun h => by omega⟩
  · rw [if_neg hshort]
    by_cases hlong : buf.length - (offset + 4) < n
    · rw [if_pos hlong]
      exact ⟨fun h => absurd h (hr _), fun h => by omega⟩
    · rw [if_neg hlong]
      exact ⟨fun h => ⟨by omega, h⟩, fun h => h.2⟩

end

theorem Slice.length_bytes (s : Slice) : s.bytes.length = s.len := by
  unfold bytes
  rw [List.length_take]
  exact Nat.min_eq_left s.le

theorem ofLe_take_lt (bytes : Bytes) (w : Nat) : ofLe (bytes.take w) < 256 ^ w :=
  (ofLe_lt _).trans_le (Nat.pow_le_pow_right (by decide) (List.length_take_le w bytes))

/-- The records of a chunk, if its fields are there, are within the capacity of the buffer. -/
def RecordsFit (buf : Slice) : Prop :=
  let name := ofLe ((buf.bytes.drop 28).take 4)
  let length := ofLe ((buf.bytes.drop (32 + name)).take 8)
  40 + name ≤ buf.len → length < 2 ^ 63 ∧ 40 + name + length ≤ buf.cap

theorem int64_nonneg {n : Nat} (hn : n < 2 ^ 64) : 0 ≤ int64 n ↔ n < 2 ^ 63 := by
  unfold int64
  split <;> omega

theorem between_int64 (s : Slice) (offset : Nat) {length : Nat} (hlt : length < 2 ^ 64) :
    (if 0 ≤ (offset : Int) + int64 length then
      s.between offset ((offset : Int) + int64 length).toNat else none) =
      if length < 2 ^ 63 ∧ offset + length ≤ s.cap then some ((s.array.drop offset).take length)
      else none := by
  unfold int64 Slice.between
  by_cases hshort : length < 2 ^ 63
  · rw [if_pos hshort, if_pos (by omega),
      show ((offset : Int) + (length : Int)).toNat = offset + length by omega,
      Nat.add_sub_cancel_left]
    simp only [hshort, Nat.le_add_right, true_and]
  · rw [if_neg hshort, if_neg fun h : length < 2 ^ 63 ∧ _ => hshort h.1]
    split
    · exact if_neg (by omega)
    · rfl

/-- **What `ParseChunk` comes to** if its fields are there. -/
theorem parseChunk_eq {buf : Slice} {r : Res Error Chunk} (hr : ∀ e, .err e ≠ r)
    {name length : Nat} (hname : ofLe ((buf.bytes.drop 28).take 4) = name)
    (hlength : ofLe ((buf.bytes.drop (32 + name)).take 8) = length) :
    parseChunk buf = r ↔ 40 + name ≤ buf.len ∧
      (if length < 2 ^ 63 ∧ 40 + name + length ≤ buf.cap then
        .ok { messageStartTime := .ofNat (ofLe (buf.bytes.take 8))
              messageEndTime := .ofNat (ofLe ((buf.bytes.drop 8).take 8))
              uncompressedSize := ofLe ((buf.bytes.drop 16).take 8)
              uncompressedCRC := .ofNat (ofLe ((buf.bytes.drop 24).take 4))
              compression := (buf.bytes.drop 32).take name
              records := (buf.array.drop (40 + name)).take length }
      else .panic) = r := by
  have hlen := buf.length_bytes
  have hlt : length < 2 ^ 64 := by
    rw [← hlength]
    exact ofLe_take_lt _ 8
  have htoNat : ∀ n, n < 2 ^ 64 → (UInt64.ofNat n).toNat = n := fun n h => by
    rw [UInt64.toNat_ofNat', Nat.mod_eq_of_lt h]
  unfold parseChunk
  rw [bind_getUint64_eq hr, bind_getUint64_eq hr, bind_getUint64_eq hr, bind_getUint32_eq hr]
  by_cases hshort : buf.len < 28
  · constructor
    · rintro ⟨-, -, -, h, -⟩
      omega
    · rintro ⟨h, -⟩
      omega
  · rw [bind_getPrefixedString_eq hr (by omega) hname, bind_getUint64_eq hr]
    simp only [Nat.zero_add, hlen]
    rw [show 8 + 8 + 8 + 4 + 4 + name = 32 + name by omega, hlength, htoNat length hlt,
      show 32 + name + 8 = 40 + name by omega, between_int64 buf (40 + name) hlt,
      htoNat _ (ofLe_take_lt _ 8)]
    refine ⟨fun ⟨_, _, _, _, _, hin, h⟩ => ⟨hin, ?_⟩, fun ⟨hin, h⟩ =>
      ⟨by omega, by omega, by omega, by omega, by omega, hin, ?_⟩⟩
    all_goals
      rw [← h]
      by_cases hfit : length < 2 ^ 63 ∧ 40 + name + length ≤ buf.cap
      · simp only [if_pos hfit, List.drop_zero]
      · simp only [if_neg hfit]

/-- **`ParseChunk` panics on records that do not fit.** -/
theorem parseChunk_panic_iff (buf : Slice) : parseChunk buf = .panic ↔ ¬ RecordsFit buf := by
  rw [parseChunk_eq err_ne_panic rfl rfl]
  unfold RecordsFit
  split <;> simp_all

/-! ## The lexer

### Towards the end -/

namespace Lexer
variable {D : Unpackers} {l l' l'' : Lexer} {bytes : Bytes} {capacity : Nat}

/-- Where the bytes in front of the lexer come from in the base reader. -/
def anchor (l : Lexer) : Nat :=
  match l.reader with
  | .decoder _ start _ => start
  | _ => l.source.pos

/-- How much of the base reader is left behind that. -/
def togo (l : Lexer) : Nat := l.source.bytes.length - l.anchor

/-- How much of a chunk is left. -/
def inner (l : Lexer) : Nat :=
  match l.reader with
  | .base => 0
  | .limited _ => 1
  | .decoder d _ read => d.bytes.length - read + 1
  | .buffer bytes pos => bytes.length - pos + 1

/-- The lexer went on, or stayed where it was. -/
def Passed (l l' : Lexer) : Prop :=
  l'.togo < l.togo ∨ (l'.togo = l.togo ∧ l'.inner ≤ l.inner)

/-- The lexer went on. -/
def Nearer (l l' : Lexer) : Prop :=
  l'.togo < l.togo ∨ (l'.togo = l.togo ∧ l'.inner < l.inner)

theorem Nearer.passed (h : Nearer l l') (h' : Passed l' l'') : Nearer l l'' := by
  unfold Nearer at h ⊢
  unfold Passed at h'
  omega

theorem nearer_wf : WellFounded fun l' l : Lexer => Nearer l l' := by
  have hlex : WellFounded (Prod.Lex (· < · : Nat → Nat → Prop) (· < ·)) :=
    (Prod.lex ⟨_, Nat.lt_wfRel.wf⟩ ⟨_, Nat.lt_wfRel.wf⟩).wf
  refine Subrelation.wf (fun {l' l} h => ?_) (InvImage.wf (fun l : Lexer => (l.togo, l.inner)) hlex)
  rcases h with h | ⟨htogo, hinner⟩
  · exact .left _ _ h
  · show Prod.Lex _ _ (l'.togo, l'.inner) (l.togo, l.inner)
    rw [htogo]
    exact .right _ hinner

theorem passed_advance (l : Lexer) (k : Nat) (ended : Bool) : Passed l (l.advance k ended) := by
  obtain ⟨⟨bytes, pos, seeks⟩, reader, room, opts⟩ := l
  unfold Passed togo inner anchor advance
  cases reader with
  | base =>
    show bytes.length - (pos + k) < bytes.length - pos ∨
      (bytes.length - (pos + k) = bytes.length - pos ∧ 0 ≤ 0)
    omega
  | limited left =>
    show bytes.length - (pos + k) < bytes.length - pos ∨
      (bytes.length - (pos + k) = bytes.length - pos ∧ 1 ≤ 1)
    omega
  | decoder d start read =>
    refine .inr ⟨rfl, ?_⟩
    show d.bytes.length - (read + k) + 1 ≤ d.bytes.length - read + 1
    omega
  | buffer chunk at_ =>
    refine .inr ⟨rfl, ?_⟩
    show chunk.length - (at_ + k) + 1 ≤ chunk.length - at_ + 1
    omega

theorem nearer_advance {k : Nat} (hpos : 0 < k) (hle : k ≤ l.available.length) (ended : Bool) :
    Nearer l (l.advance k ended) := by
  obtain ⟨⟨bytes, pos, seeks⟩, reader, room, opts⟩ := l
  unfold available Source.rest at hle
  unfold Nearer togo inner anchor advance
  cases reader with
  | base =>
    left
    show bytes.length - (pos + k) < bytes.length - pos
    simp only [List.length_drop] at hle
    omega
  | limited left =>
    left
    show bytes.length - (pos + k) < bytes.length - pos
    simp only [List.length_take, List.length_drop] at hle
    omega
  | decoder d start read =>
    refine .inr ⟨rfl, ?_⟩
    show d.bytes.length - (read + k) + 1 < d.bytes.length - read + 1
    simp only [List.length_drop] at hle
    omega
  | buffer chunk at_ =>
    refine .inr ⟨rfl, ?_⟩
    show chunk.length - (at_ + k) + 1 < chunk.length - at_ + 1
    simp only [List.length_drop] at hle
    omega

theorem nearer_base (hin : l.inChunk = true) (k : Nat) :
    Nearer l { l.advance k true with reader := .base } := by
  obtain ⟨⟨bytes, pos, seeks⟩, reader, room, opts⟩ := l
  unfold Nearer togo inner anchor advance
  cases reader with
  | base => cases hin
  | limited left =>
    show bytes.length - (pos + k) < bytes.length - pos ∨
      (bytes.length - (pos + k) = bytes.length - pos ∧ 0 < 1)
    omega
  | decoder d start read =>
    show bytes.length - (start + d.takenAtEnd) < bytes.length - start ∨
      (bytes.length - (start + d.takenAtEnd) = bytes.length - start ∧
        0 < d.bytes.length - read + 1)
    omega
  | buffer chunk at_ =>
    exact .inr ⟨rfl, Nat.succ_pos _⟩

theorem advance_opts (l : Lexer) (k : Nat) (ended : Bool) : (l.advance k ended).opts = l.opts :=
  (same_advance l k ended).1

/-! ### What a chunk may look like -/

/-- A reader is put over the records of a chunk. -/
def Opens (D : Unpackers) (opts : LexerOptions) (compression records : Bytes) : Prop :=
  match opts.decompressors compression with
  | some decompressor => (decompressor records).isOk = true
  | none => compression = [] ∨ (compression = utf8 "zstd" ∧ (D.zstd records).isOk = true) ∨
      compression = utf8 "lz4"

/-- **The bytes behind the header of a chunk** that the lexer opens.  The length of the name and
that of the records are read into 32 bytes, with the name.  The sum of 8 and the length of the name
is one of 32 bits: if it is cut off, there must be too few bytes for what is left of it.  And the
size of a chunk that is validated may be doubled. -/
structure ChunkFits (D : Unpackers) (opts : LexerOptions) (room : Nat) (body : Bytes) : Prop where
  name : 32 ≤ body.length → ofLe ((body.drop 28).take 4) ≤ 24 ∨
    (2 ^ 32 - 8 ≤ ofLe ((body.drop 28).take 4) ∧
      body.length < 32 + (ofLe ((body.drop 28).take 4) + 8 - 2 ^ 32))
  size : ∀ name, ofLe ((body.drop 28).take 4) = name → 40 + name ≤ body.length →
    Opens D opts ((body.drop 32).take name)
      ((body.drop (40 + name)).take (int64 (ofLe ((body.drop (32 + name)).take 8))).toNat) →
    opts.validateChunkCRCs = true →
    (0 < opts.maxDecompressedChunkSize →
      (ofLe ((body.drop 16).take 8) : Int) ≤ opts.maxDecompressedChunkSize) →
    room < ofLe ((body.drop 16).take 8) → 2 ^ 63 ≤ ofLe ((body.drop 16).take 8) →
    maxInt32 ≤ 2 * ofLe ((body.drop 16).take 8) - 2 ^ 64

/-- The position from which the lexer seeks, if its reader can seek. -/
def seekPos (l : Lexer) : Option Nat :=
  match l.reader with
  | .base => if l.source.seeks then some l.source.pos else none
  | .buffer _ pos => some pos
  | _ => none

/-- The opcode of the record in front of the lexer. -/
def opcode (l : Lexer) : UInt8 := l.available.headD 0

/-- The length of the record in front of the lexer. -/
def recordLen (l : Lexer) : Nat := ofLe ((l.available.drop 1).take 8)

/-- **What may be in front of a lexer**, if there is the header of a record: a chunk that fits its
buffers, and an attachment that does not send the reader backwards. -/
structure Guarded (D : Unpackers) (l : Lexer) : Prop where
  chunk : 9 ≤ l.available.length → l.opts.Admits l.recordLen → l.opcode = op.CHUNK →
    l.opts.emitChunks = false → l.inChunk = false →
    ChunkFits D l.opts l.room (l.available.drop 9)
  attachment : 9 ≤ l.available.length → l.opts.Admits l.recordLen → l.opcode = op.ATTACHMENT →
    l.opts.attachmentCallback = none → ∀ pos, l.seekPos = some pos →
    l.recordLen < 2 ^ 63 ∨ pos + 9 + l.recordLen < 2 ^ 64

/-! ### One turn -/

/-- The lexer goes on behind this turn. -/
def goes : Turn → Prop
  | .token _ => True
  | .again _ => True
  | _ => False

/-- No panic, and `P` of the lexer if it goes on. -/
def Fine (P : Lexer → Prop) (r : Turn × Lexer) : Prop := r.1 ≠ .panic ∧ (goes r.1 → P r.2)

theorem fine_fail (P : Lexer → Prop) (type : TokenType) (e : Error) (l : Lexer) :
    Fine P (.fail type e, l) := ⟨by rintro ⟨⟩, False.elim⟩

theorem fine_again {P : Lexer → Prop} (capacity : Nat) (h : P l) : Fine P (.again capacity, l) :=
  ⟨by rintro ⟨⟩, fun _ => h⟩

theorem fine_recordTurn (l : Lexer) (capacity : Nat) (opcode : UInt8) (recordLen : Nat) :
    Fine (Passed l) (l.recordTurn capacity opcode recordLen) := by
  unfold recordTurn
  split
  · exact fine_fail _ _ _ _
  · unfold readFull
    by_cases hle : recordLen ≤ l.available.length
    · rw [if_pos hle]
      simp only
      have hpassed := passed_advance l recordLen false
      cases tokenType? opcode with
      | some type => exact ⟨by rintro ⟨⟩, fun _ => hpassed⟩
      | none =>
        simp only
        split
        · exact fine_fail _ _ _ _
        · exact fine_again _ hpassed
    · rw [if_neg hle]
      exact fine_fail _ _ _ _

theorem fine_endTurn (l : Lexer) (capacity : Nat) (head : Bytes) (e : Error) :
    Fine (Nearer l) ((l.advance l.available.length true).endTurn capacity head e) := by
  unfold endTurn
  split
  · rename_i h
    have hin : l.inChunk = true := by
      rw [Bool.and_eq_true] at h
      have hsame : (l.advance l.available.length true).inChunk = l.inChunk := by
        obtain ⟨source, reader, room, opts⟩ := l
        cases reader <;> rfl
      exact hsame ▸ h.1
    exact fine_again _ (nearer_base hin _)
  · split
    · split <;> exact fine_fail _ _ _ _
    · exact fine_fail _ _ _ _

/-- Backwards would be in front of the start of the input. -/
def Forward (l : Lexer) (n : Int) : Prop := 0 ≤ n ∨ ∀ pos, l.seekPos = some pos → pos + n < 0

theorem le_of_seek {pos pos' : Nat} {n : Int} (h : seek pos n = .ok pos')
    (hn : 0 ≤ n ∨ (pos : Int) + n < 0) : pos ≤ pos' := by
  unfold seek at h
  split at h
  · cases h
    omega
  · cases h

theorem fine_discard (l : Lexer) (n : Int) (capacity : Nat) :
    Fine (Passed l) (match l.discard n with
      | (.ok (), l) => (.again capacity, l)
      | (.error e, l) =>
          (.fail .error (.wrapped "failed to consume unhandled attachment data" e), l)) := by
  unfold discard
  by_cases hle : n.toNat ≤ l.available.length
  · rw [if_pos hle]
    exact fine_again _ (passed_advance l _ _)
  · rw [if_neg hle]
    exact fine_fail _ _ _ _

theorem fine_skipAttachment {n : Int} (h : Forward l n) (capacity : Nat) :
    Fine (Passed l) (l.skipAttachment capacity n) := by
  obtain ⟨⟨bytes, pos, seeks⟩, reader, room, opts⟩ := l
  unfold skipAttachment skipReader
  cases reader with
  | base =>
    cases seeks with
    | false => exact fine_discard _ n capacity
    | true =>
      simp only [if_true]
      cases hseek : seek pos n with
      | error e => exact fine_fail _ _ _ _
      | ok pos' =>
        have hle := le_of_seek hseek (h.imp_right fun h => h pos rfl)
        refine fine_again _ ?_
        show bytes.length - pos' < bytes.length - pos ∨
          (bytes.length - pos' = bytes.length - pos ∧ 0 ≤ 0)
        omega
  | limited left | decoder d start read => exact fine_discard _ n capacity
  | buffer chunk at_ =>
    simp only
    cases hseek : seek at_ n with
    | error e => exact fine_fail _ _ _ _
    | ok pos' =>
      have hle := le_of_seek hseek (h.imp_right fun h => h at_ rfl)
      refine fine_again _ (.inr ⟨rfl, ?_⟩)
      show chunk.length - pos' + 1 ≤ chunk.length - at_ + 1
      omega

theorem fine_attachmentTurn {n : Int} (h : l.opts.attachmentCallback = none → Forward l n)
    (capacity : Nat) : Fine (Passed l) (l.attachmentTurn capacity n) := by
  unfold attachmentTurn
  cases hcallback : l.opts.attachmentCallback with
  | none => exact fine_skipAttachment (h hcallback) capacity
  | some callback =>
    simp only
    split
    · exact fine_fail _ _ _ _
    · rename_i attachmentReader offset hparse
      have hle := parseAttachmentReader_le hparse
      have htake := List.length_take_le n.toNat l.available
      obtain ⟨⟨read, err⟩, hanswer⟩ :
          ∃ r, callback attachmentReader ((l.available.take n.toNat).drop offset) = r := ⟨_, rfl⟩
      rw [hanswer]
      simp only
      cases err with
      | some e => exact fine_fail _ _ _ _
      | none =>
        -- the callback reads within the record
        have hpos : 0 < (l.available.take n.toNat).length := by
          rw [List.length_pos_iff]
          intro hnil
          rw [hnil] at hparse
          cases hparse
        obtain ⟨k, hk⟩ :
            ∃ k, offset + min read ((l.available.take n.toNat).drop offset).length = k := ⟨_, rfl⟩
        have hwithin : (k : Int) ≤ n := by
          rw [List.length_drop] at hk
          omega
        have hpassed := passed_advance l k false
        have hfine : Fine (Passed (l.advance k false))
            ((l.advance k false).skipAttachment capacity (n - k)) :=
          fine_skipAttachment (.inl (by omega)) capacity
        show Fine (Passed l) ((l.advance _ false).skipAttachment capacity (n - (_ : Nat)))
        rw [hk]
        refine ⟨hfine.1, fun hgoes => ?_⟩
        have hpassed' := hfine.2 hgoes
        unfold Passed at hpassed hpassed' ⊢
        omega

/-! ### Opening a chunk -/

/-- Nothing in front of `pos` of the base reader comes back. -/
structure Beyond (bytes : Bytes) (pos : Nat) (l : Lexer) : Prop where
  source : l.source.bytes = bytes
  le : pos ≤ l.source.pos
  anchored : pos ≤ l.anchor

theorem beyond_advance {pos : Nat} (h : Beyond bytes pos l) (k : Nat)
    (ended : Bool) : Beyond bytes pos (l.advance k ended) := by
  obtain ⟨⟨bytes', pos', seeks⟩, reader, room, opts⟩ := l
  obtain ⟨hbytes, hpos, hanchor⟩ := h
  cases reader with
  | base => exact ⟨hbytes, hpos.trans (Nat.le_add_right _ _), hpos.trans (Nat.le_add_right _ _)⟩
  | limited left =>
    exact ⟨hbytes, hpos.trans (Nat.le_add_right _ _), hpos.trans (Nat.le_add_right _ _)⟩
  | decoder d start read => exact ⟨hbytes, hanchor.trans (Nat.le_add_right _ _), hanchor⟩
  | buffer chunk at_ => exact ⟨hbytes, hpos, hpos⟩

theorem read_eq_of_le {n : Nat} (h : n ≤ l.available.length) :
    Lexer.read n l = (.ok (l.available.take n, none), l.advance n false) := by
  unfold Lexer.read readFull
  rw [if_pos h]

theorem read_eq_of_lt {n : Nat} (h : l.available.length < n) :
    ∃ e, Lexer.read n l = (.ok (l.available, some e), l.advance l.available.length true) := by
  unfold Lexer.read readFull
  rw [if_neg (by omega)]
  exact ⟨_, rfl⟩

theorem advance_base (hbase : l.reader = .base) (k : Nat) (ended : Bool) :
    (l.advance k ended).reader = .base ∧ (l.advance k ended).source.pos = l.source.pos + k ∧
      (l.advance k ended).available = l.available.drop k := by
  obtain ⟨⟨bytes, pos, seeks⟩, reader, room, opts⟩ := l
  cases hbase
  exact ⟨rfl, rfl, (List.drop_drop ..).symm⟩

theorem beyond_of_base (hbase : l.reader = .base) (k : Nat) :
    Beyond l.source.bytes (l.source.pos + k) (l.advance k false) := by
  obtain ⟨source, reader, room, opts⟩ := l
  cases hbase
  exact ⟨rfl, Nat.le_refl _, Nat.le_refl _⟩

/-- The fields in front of the records, in a body that is long enough. -/
def headOf (body : Bytes) (name : Nat) : ChunkHead where
  uncompressedSize := ofLe ((body.drop 16).take 8)
  uncompressedCRC := .ofNat (ofLe ((body.drop 24).take 4))
  compression := (body.drop 32).take name
  recordsLength := ofLe ((body.drop (32 + name)).take 8)

theorem take_drop_of_le {i k n : Nat} (h : i + k ≤ n) :
    ((bytes.take n).drop i).take k = (bytes.drop i).take k := by
  rw [List.drop_take, List.take_take, Nat.min_eq_left (by omega)]

theorem readCompression_spec {body : Bytes} (recordLen : Nat) (hlen : 32 ≤ body.length)
    (hname : ofLe ((body.drop 28).take 4) ≤ 24 ∨
      (2 ^ 32 - 8 ≤ ofLe ((body.drop 28).take 4) ∧
        body.length < 32 + (ofLe ((body.drop 28).take 4) + 8 - 2 ^ 32)))
    (hrest : l.available = body.drop 32) :
    (readCompression recordLen (body.take 32) l).1 ≠ .panic ∧
      ∀ head l', readCompression recordLen (body.take 32) l = (.ok head, l') →
        ∃ name, ofLe ((body.drop 28).take 4) = name ∧ 40 + name ≤ body.length ∧
          head = headOf body name ∧ l' = l.advance (name + 8) false := by
  obtain ⟨name, hn⟩ : ∃ name, ofLe ((body.drop 28).take 4) = name := ⟨_, rfl⟩
  have hlt : name < 2 ^ 32 := by
    rw [← hn]
    exact ofLe_take_lt _ 4
  rw [hn] at hname
  have hnat : (UInt32.ofNat name).toNat = name := by
    rw [UInt32.toNat_ofNat', Nat.mod_eq_of_lt hlt]
  have hrestlen : l.available.length = body.length - 32 := by rw [hrest, List.length_drop]
  unfold readCompression
  simp only [take_drop_of_le (show 28 + 4 ≤ 32 by omega), hn]
  rcases hname with hshort | ⟨hlong, hfew⟩
  · have hsum : (UInt32.ofNat name + 8).toNat = name + 8 := by
      rw [UInt32.toNat_add, hnat, show (8 : UInt32).toNat = 8 from rfl]
      omega
    rw [if_neg (by omega), hsum]
    by_cases hfits : 40 + name ≤ body.length
    · rw [Exec.bind_ok (read_eq_of_le (by omega)), hnat]
      simp only
      rw [if_neg (by omega)]
      refine ⟨ok_ne_panic _, fun head l' h => ?_⟩
      cases h
      refine ⟨name, rfl, hfits, ?_, rfl⟩
      unfold headOf
      rw [take_drop_of_le (by omega), take_drop_of_le (by omega), hrest,
        List.take_take, Nat.min_eq_left (by omega), take_drop_of_le (by omega), List.drop_drop]
    · obtain ⟨e, hread⟩ := read_eq_of_lt (l := l) (n := name + 8) (by omega)
      rw [Exec.bind_ok hread]
      exact ⟨err_ne_panic _, by rintro _ _ ⟨⟩⟩
  · have hsum : (UInt32.ofNat name + 8).toNat = name + 8 - 2 ^ 32 := by
      rw [UInt32.toNat_add, hnat, show (8 : UInt32).toNat = 8 from rfl]
      omega
    rw [if_neg (by omega), hsum]
    obtain ⟨e, hread⟩ := read_eq_of_lt (l := l) (n := name + 8 - 2 ^ 32) (by omega)
    rw [Exec.bind_ok hread]
    exact ⟨err_ne_panic _, by rintro _ _ ⟨⟩⟩

theorem readChunkHead_spec (hbase : l.reader = .base) (recordLen : Nat)
    (hname : 32 ≤ l.available.length → ofLe ((l.available.drop 28).take 4) ≤ 24 ∨
      (2 ^ 32 - 8 ≤ ofLe ((l.available.drop 28).take 4) ∧
        l.available.length < 32 + (ofLe ((l.available.drop 28).take 4) + 8 - 2 ^ 32))) :
    (readChunkHead recordLen l).1 ≠ .panic ∧
      ∀ head l', readChunkHead recordLen l = (.ok head, l') →
        ∃ name, ofLe ((l.available.drop 28).take 4) = name ∧ 40 + name ≤ l.available.length ∧
          head = headOf l.available name ∧ l' = (l.advance 32 false).advance (name + 8) false := by
  unfold readChunkHead
  by_cases hlen : 32 ≤ l.available.length
  · rw [Exec.bind_ok (read_eq_of_le hlen)]
    obtain ⟨-, -, hrest⟩ := advance_base hbase 32 false
    exact readCompression_spec recordLen hlen (hname hlen) hrest
  · obtain ⟨e, hread⟩ := read_eq_of_lt (l := l) (n := 8 + 8 + 8 + 4 + 4) (by omega)
    rw [Exec.bind_ok hread]
    exact ⟨err_ne_panic _, by rintro _ _ ⟨⟩⟩

/-- No panic from a state where `P` holds, and `Q` holds where the method succeeds. -/
abbrev Goes {σ α : Type} (P : σ → Prop) (x : Exec σ Error α) (Q : α → σ → Prop) : Prop :=
  Exec.Ensures P x fun r s => r ≠ .panic ∧ ∀ a, r = .ok a → Q a s

theorem goes_bind {σ α β : Type} {P : σ → Prop} {x : Exec σ Error α} {f : α → Exec σ Error β}
    {M : α → σ → Prop} {Q : β → σ → Prop} (hx : Goes P x M) (hf : ∀ a, Goes (M a) (f a) Q) :
    Goes P (x >>= f) Q := by
  refine Exec.Ensures.bind hx (fun a => ?_) (fun e s _ => ⟨err_ne_panic e, by rintro _ ⟨⟩⟩)
    fun s h => absurd rfl h.1
  exact (hf a).mono (fun s h => h.2 a rfl) fun _ _ h => h

theorem goes_pure {σ α : Type} {P : σ → Prop} {Q : α → σ → Prop} {a : α}
    (h : ∀ s, P s → Q a s) : Goes P (pure a : Exec σ Error α) Q := by
  refine fun s hs => ⟨ok_ne_panic a, fun a' heq => ?_⟩
  cases heq
  exact h s hs

theorem goes_fail {σ α : Type} {P : σ → Prop} {Q : α → σ → Prop} (e : Error) :
    Goes P (Exec.fail e : Exec σ Error α) Q :=
  fun _ _ => ⟨err_ne_panic e, by rintro _ ⟨⟩⟩

theorem goes_openChunk (head : ChunkHead) {pos : Nat} (h : Beyond bytes pos l) :
    Goes (fun l₀ => l₀ = l) (openChunk D head) fun _ l' =>
      Opens D l.opts head.compression (l.source.rest.take (int64 head.recordsLength).toNat) ∧
        Beyond bytes pos l' ∧ Same l l' := by
  have hdecode : ∀ d : Decoding, Beyond bytes pos { l with reader := .decoder d l.source.pos 0 } ∧
      Same l { l with reader := .decoder d l.source.pos 0 } :=
    fun d => ⟨⟨h.source, h.le, h.le⟩, rfl, rfl⟩
  rintro l₀ rfl
  unfold openChunk Opens
  cases hcustom : l₀.opts.decompressors head.compression with
  | some decompressor =>
    simp only
    cases hreset : decompressor (l₀.source.rest.take (int64 head.recordsLength).toNat) with
    | error e => exact ⟨err_ne_panic _, by rintro _ ⟨⟩⟩
    | ok d => exact ⟨ok_ne_panic _, fun _ _ => ⟨rfl, hdecode d⟩⟩
  | none =>
    simp only
    by_cases hnone : head.compression = []
    · rw [if_pos hnone]
      exact ⟨ok_ne_panic _, fun _ _ => ⟨.inl hnone, ⟨h.source, h.le, h.le⟩, rfl, rfl⟩⟩
    · rw [if_neg hnone]
      by_cases hzstd : head.compression = utf8 "zstd"
      · rw [if_pos hzstd]
        cases hreset : D.zstd (l₀.source.rest.take (int64 head.recordsLength).toNat) with
        | error e => exact ⟨err_ne_panic _, by rintro _ ⟨⟩⟩
        | ok d => exact ⟨ok_ne_panic _, fun _ _ => ⟨.inr (.inl ⟨hzstd, rfl⟩), hdecode d⟩⟩
      · rw [if_neg hzstd]
        by_cases hlz4 : head.compression = utf8 "lz4"
        · rw [if_pos hlz4]
          exact ⟨ok_ne_panic _, fun _ _ => ⟨.inr (.inr hlz4), hdecode _⟩⟩
        · rw [if_neg hlz4]
          exact ⟨err_ne_panic _, by rintro _ ⟨⟩⟩

section
variable {bytes : Bytes} {pos : Nat}

theorem goes_read (n : Nat) : Goes (Beyond bytes pos) (Lexer.read n) fun _ => Beyond bytes pos := by
  intro l h
  rcases Nat.lt_or_ge l.available.length n with hlt | hle
  · obtain ⟨e, hread⟩ := read_eq_of_lt hlt
    rw [hread]
    exact ⟨ok_ne_panic _, fun _ _ => beyond_advance h _ _⟩
  · rw [read_eq_of_le hle]
    exact ⟨ok_ne_panic _, fun _ _ => beyond_advance h _ _⟩

theorem goes_readExtra (compression : Bytes) :
    Goes (Beyond bytes pos) (readExtra compression) fun _ => Beyond bytes pos := by
  intro l h
  have hend := beyond_advance h l.available.length true
  unfold readExtra
  split
  · simp only
    split
    · exact ⟨err_ne_panic _, by rintro _ ⟨⟩⟩
    · split
      · exact ⟨err_ne_panic _, by rintro _ ⟨⟩⟩
      · exact ⟨ok_ne_panic _, fun _ _ => hend⟩
  · exact ⟨ok_ne_panic _, fun _ _ => h⟩

theorem goes_checkChunk (head : ChunkHead) (data : Bytes) :
    Goes (Beyond bytes pos) (checkChunk head data) fun _ => Beyond bytes pos := by
  intro l h
  unfold checkChunk
  split
  · exact ⟨err_ne_panic _, by rintro _ ⟨⟩⟩
  · exact ⟨ok_ne_panic _, fun _ _ => ⟨h.source, h.le, h.le⟩⟩

theorem goes_fillBuffer (head : ChunkHead) :
    Goes (fun l => Beyond bytes pos l ∧ head.uncompressedSize ≤ l.room) (fillBuffer head)
      fun _ => Beyond bytes pos := by
  refine Exec.Ensures.get_bind fun l h => ?_
  rw [if_neg (by omega)]
  refine goes_bind (goes_read head.uncompressedSize) (fun r => ?_) l h.1
  obtain ⟨data, err⟩ := r
  cases err with
  | some e => exact goes_fail _
  | none =>
    exact goes_bind (goes_readExtra _) fun _ => goes_checkChunk head data

theorem goes_makeRoom {size : Nat} {room : Nat} (hlt : size < 2 ^ 64)
    (hdouble : room < size → 2 ^ 63 ≤ size → maxInt32 ≤ 2 * size - 2 ^ 64) :
    Goes (fun l => Beyond bytes pos l ∧ l.room = room) (makeRoom size)
      fun _ l => Beyond bytes pos l ∧ size ≤ l.room := by
  intro l ⟨h, hroom⟩
  unfold makeRoom
  by_cases hshort : l.room < size
  · rw [if_pos hshort]
    simp only
    split
    · rename_i hsmall
      refine ⟨ok_ne_panic _, fun _ _ => ⟨⟨h.source, h.le, h.anchored⟩, ?_⟩⟩
      show size ≤ size * 2 % 2 ^ 64
      by_cases hbig : 2 ^ 63 ≤ size
      · have hcut := hdouble (by omega) hbig
        omega
      · omega
    · exact ⟨err_ne_panic _, by rintro _ ⟨⟩⟩
  · rw [if_neg hshort]
    exact ⟨ok_ne_panic _, fun _ _ => ⟨h, Nat.le_of_not_lt hshort⟩⟩

theorem goes_validateChunk {head : ChunkHead} {opts : LexerOptions} {room : Nat}
    (hlt : head.uncompressedSize < 2 ^ 64)
    (hdouble : (0 < opts.maxDecompressedChunkSize →
        (head.uncompressedSize : Int) ≤ opts.maxDecompressedChunkSize) →
      room < head.uncompressedSize → 2 ^ 63 ≤ head.uncompressedSize →
      maxInt32 ≤ 2 * head.uncompressedSize - 2 ^ 64) :
    Goes (fun l => Beyond bytes pos l ∧ l.opts = opts ∧ l.room = room) (validateChunk head)
      fun _ => Beyond bytes pos := by
  refine Exec.Ensures.get_bind fun l h => ?_
  obtain ⟨hbeyond, hopts, hroom⟩ := h
  split
  · exact goes_fail (P := fun _ => True) _ l trivial
  · rename_i hmax
    rw [hopts] at hmax
    refine goes_bind (goes_makeRoom hlt (hdouble fun hpos => ?_)) (fun _ => goes_fillBuffer head) l
      ⟨hbeyond, hroom⟩
    by_contra hexceeds
    exact hmax ⟨hpos, by omega⟩

end

/-- **A chunk is opened**, or is an error; the lexer goes on behind its first bytes. -/
theorem loadChunk_spec (recordLen : Nat)
    (hfits : l.inChunk = false → ChunkFits D l.opts l.room l.available) :
    (loadChunk D recordLen l).1 ≠ .panic ∧
      ∀ l', loadChunk D recordLen l = (.ok (), l') → l'.togo < l.togo := by
  unfold loadChunk
  rw [Exec.bind_ok (Exec.get_run l)]
  by_cases hin : l.inChunk = true
  · rw [if_pos hin]
    exact ⟨err_ne_panic _, by rintro _ ⟨⟩⟩
  · rw [if_neg hin]
    rw [Bool.not_eq_true] at hin
    have hbase : l.reader = .base := by
      unfold inChunk at hin
      cases hreader : l.reader with
      | base => rfl
      | _ =>
        rw [hreader] at hin
        cases hin
    have hfits := hfits hin
    obtain ⟨hpanic, hok⟩ := readChunkHead_spec hbase recordLen hfits.name
    rw [Exec.bind_run]
    rcases hhead : readChunkHead recordLen l with ⟨head | e | _, l₂⟩
    · obtain ⟨name, hn, hlen, rfl, rfl⟩ := hok head l₂ hhead
      obtain ⟨hbase₁, hpos₁, hrest₁⟩ := advance_base hbase 32 false
      obtain ⟨hbase₂, hpos₂, hrest₂⟩ := advance_base hbase₁ (name + 8) false
      obtain ⟨l₂, hl₂⟩ : ∃ l₂, (l.advance 32 false).advance (name + 8) false = l₂ := ⟨_, rfl⟩
      have hsame : Same l l₂ := by
        rw [← hl₂]
        exact (same_advance l _ _).trans (same_advance _ _ _)
      rw [hl₂] at hbase₂ hpos₂ hrest₂ ⊢
      rw [hrest₁, List.drop_drop, show 32 + (name + 8) = 40 + name by omega] at hrest₂
      have hbeyond : Beyond l.source.bytes (l.source.pos + 32) l₂ := by
        rw [← hl₂]
        exact beyond_advance (beyond_of_base hbase 32) _ _
      have hrecords : l₂.source.rest = l.available.drop (40 + name) := by
        rw [← hrest₂]
        unfold available
        rw [hbase₂]
      have hgoes : Goes (fun l₀ => l₀ = l₂) (do
          let _ ← openChunk D (headOf l.available name)
          if l.opts.validateChunkCRCs then validateChunk (headOf l.available name) else pure ())
          fun _ => Beyond l.source.bytes (l.source.pos + 32) := by
        refine goes_bind (goes_openChunk _ hbeyond) fun _ => ?_
        by_cases hvalidate : l.opts.validateChunkCRCs = true
        · rw [if_pos hvalidate]
          intro l₃ ⟨hopens, hbeyond₃, hsame₃⟩
          rw [hsame.1, hrecords] at hopens
          have hsize : (headOf l.available name).uncompressedSize < 2 ^ 64 := ofLe_take_lt _ 8
          exact goes_validateChunk hsize (hfits.size name hn hlen hopens hvalidate) l₃
            ⟨hbeyond₃, (hsame.trans hsame₃).1, (hsame.trans hsame₃).2⟩
        · rw [if_neg hvalidate]
          exact goes_pure fun l₃ h => h.2.1
      obtain ⟨hpanic', hok'⟩ := hgoes l₂ rfl
      refine ⟨hpanic', fun l' heq => ?_⟩
      have hbeyond' : Beyond l.source.bytes (l.source.pos + 32) l' := by
        have h := hok' () (congrArg Prod.fst heq)
        rwa [show _ = l' from congrArg Prod.snd heq] at h
      have hend : l.source.pos + 40 ≤ l.source.bytes.length := by
        unfold available Source.rest at hlen
        rw [hbase] at hlen
        simp only [List.length_drop] at hlen
        omega
      have hanchored := hbeyond'.anchored
      unfold togo
      rw [hbeyond'.source]
      have hanchor : l.anchor = l.source.pos := by
        unfold anchor
        rw [hbase]
      omega
    · exact ⟨err_ne_panic _, by rintro _ ⟨⟩⟩
    · rw [hhead] at hpanic
      exact absurd rfl hpanic

theorem inChunk_advance (l : Lexer) (k : Nat) (ended : Bool) :
    (l.advance k ended).inChunk = l.inChunk := by
  obtain ⟨source, reader, room, opts⟩ := l
  cases reader <;> rfl

theorem reader_of_outside (h : l.inChunk = false) : l.reader = .base := by
  obtain ⟨source, reader, room, opts⟩ := l
  cases reader with
  | base => rfl
  | _ => cases h

theorem seekPos_advance (l : Lexer) (k : Nat) (ended : Bool) :
    (l.advance k ended).seekPos = l.seekPos.map (· + k) := by
  obtain ⟨⟨bytes, pos, seeks⟩, reader, room, opts⟩ := l
  cases reader with
  | base => cases seeks <;> rfl
  | _ => rfl

theorem forward_attachment (h : Guarded D l) (hnine : 9 ≤ l.available.length)
    (hmax : l.opts.Admits l.recordLen) (hop : l.opcode = op.ATTACHMENT)
    (hcallback : l.opts.attachmentCallback = none) :
    Forward (l.advance 9 false) (int64 l.recordLen) := by
  have hlt : l.recordLen < 2 ^ 64 := ofLe_take_lt _ 8
  rcases Nat.lt_or_ge l.recordLen (2 ^ 63) with hshort | hlong
  · exact .inl ((int64_nonneg hlt).mpr hshort)
  · right
    intro pos hpos
    rw [seekPos_advance] at hpos
    obtain ⟨pos, hseek, rfl⟩ := Option.map_eq_some_iff.mp hpos
    have hguard := h.attachment hnine hmax hop hcallback pos hseek
    unfold int64
    rw [if_neg (by omega)]
    omega

/-- **One turn of a guarded lexer**: no panic, and if it goes on it is nearer to the end. -/
theorem fine_turn (h : Guarded D l) (capacity : Nat) : Fine (Nearer l) (l.turn D capacity) := by
  unfold turn readFull
  by_cases hnine : 9 ≤ l.available.length
  · rw [if_pos hnine]
    have hnear : Nearer l (l.advance 9 false) := nearer_advance (by omega) hnine false
    have hopts := advance_opts l 9 false
    have hlen : ofLe ((l.available.take 9).drop 1) = l.recordLen := by
      unfold recordLen
      rw [List.drop_take]
    have hop : (l.available.take 9).headD 0 = l.opcode := by
      unfold opcode
      cases l.available with
      | nil => rfl
      | cons b bs => rfl
    simp only [hlen, hop, hopts]
    have hpassed : ∀ r, Fine (Passed (l.advance 9 false)) r → Fine (Nearer l) r :=
      fun r hr => ⟨hr.1, fun hgoes => hnear.passed (hr.2 hgoes)⟩
    split
    · exact fine_fail _ _ _ _
    · rename_i hmax
      have hadmits : l.opts.Admits l.recordLen := fun hpos => by
        by_contra hexceeds
        exact hmax ⟨hpos, by omega⟩
      split
      · rename_i hchunk
        have hfits : (l.advance 9 false).inChunk = false →
            ChunkFits D (l.advance 9 false).opts (l.advance 9 false).room
              (l.advance 9 false).available := by
          intro hout
          rw [inChunk_advance] at hout
          obtain ⟨-, -, hrest⟩ := advance_base (reader_of_outside hout) 9 false
          rw [hopts, (same_advance l 9 false).2, hrest]
          exact h.chunk hnine hadmits hchunk.1 hchunk.2 hout
        obtain ⟨hpanic, hok⟩ := loadChunk_spec l.recordLen hfits
        unfold chunkTurn
        rcases hload : loadChunk D l.recordLen (l.advance 9 false) with ⟨_ | e | _, l'⟩
        · refine fine_again _ (hnear.passed ?_)
          exact .inl (hok l' hload)
        · simp only
          split <;> exact fine_fail _ _ _ _
        · rw [hload] at hpanic
          exact absurd rfl hpanic
      · split
        · rename_i hatt
          refine hpassed _ (fine_attachmentTurn (fun hcallback => ?_) capacity)
          rw [hopts] at hcallback
          exact forward_attachment h hnine hadmits hatt hcallback
        · exact hpassed _ (fine_recordTurn _ _ _ _)
  · rw [if_neg hnine]
    exact fine_endTurn l capacity _ _

/-! ### All calls -/

/-- What a lexer comes to, turn by turn, with whatever buffers. -/
inductive Reaches (D : Unpackers) : Lexer → Lexer → Prop
  | refl (l : Lexer) : Reaches D l l
  | turn {l l' l'' : Lexer} {capacity : Nat} {t : Turn} (h : l.turn D capacity = (t, l'))
      (hrest : Reaches D l' l'') : Reaches D l l''

/-- The lexer is guarded, whatever it comes to. -/
def Safe (D : Unpackers) (l : Lexer) : Prop := ∀ l', Reaches D l l' → Guarded D l'

theorem Safe.turn {t : Turn} (h : Safe D l) (hturn : l.turn D capacity = (t, l')) : Safe D l' :=
  fun l'' hreaches => h l'' (.turn hturn hreaches)

theorem Safe.reaches (h : Safe D l) (hreaches : Reaches D l l') : Safe D l' := by
  induction hreaches with
  | refl l => exact h
  | turn hturn _ ih => exact ih (h.turn hturn)

theorem Safe.of_closed {S : Lexer → Prop} (h : S l)
    (hstep : ∀ l, S l → ∀ capacity, S (l.turn D capacity).2)
    (hguarded : ∀ l, S l → Guarded D l) : Safe D l := by
  intro l' hreaches
  induction hreaches with
  | refl l => exact hguarded l h
  | @turn l l₁ l₂ capacity t hturn _ ih =>
    have hnext := hstep l h capacity
    rw [hturn] at hnext
    exact ih hnext

/-- **`Next` returns**, and the lexer is nearer to the end behind a token. -/
theorem nextRecord_returns (h : Safe D l) (capacity : Nat) :
    ∃ fuel r n l', l.nextRecord D fuel capacity = some (r, n, l') ∧ r ≠ .panic ∧ Safe D l' ∧
      ((∃ t, r = .token t) → Nearer l l') := by
  induction l using nearer_wf.induction generalizing capacity with
  | h l ih =>
    obtain ⟨hpanic, hgoes⟩ := fine_turn (h l (.refl l)) capacity
    rcases hturn : l.turn D capacity with ⟨t, l₁⟩
    rw [hturn] at hpanic hgoes
    have hsafe := h.turn hturn
    cases t with
    | token t =>
      have hnext : l.nextRecord D 1 capacity =
          some (.token t, max capacity t.record.length, l₁) := by rw [nextRecord, hturn]
      exact ⟨1, _, _, l₁, hnext, by rintro ⟨⟩, hsafe, fun _ => hgoes trivial⟩
    | fail type e =>
      have hnext : l.nextRecord D 1 capacity = some (.fail type e, 0, l₁) := by
        rw [nextRecord, hturn]
      exact ⟨1, _, _, l₁, hnext, by rintro ⟨⟩, hsafe, by rintro ⟨t, ⟨⟩⟩⟩
    | panic => exact absurd rfl hpanic
    | again capacity' =>
      have hnear : Nearer l l₁ := hgoes trivial
      obtain ⟨fuel, r, n, l', hnext, hr, hsafe', htoken⟩ := ih l₁ hnear hsafe capacity'
      refine ⟨fuel + 1, r, n, l', ?_, hr, hsafe', fun ht => ?_⟩
      · rw [nextRecord, hturn]
        exact hnext
      · have hnear' := htoken ht
        unfold Nearer at hnear hnear' ⊢
        omega

theorem next_of_nextRecord {fuel n : Nat} {r : Result}
    (h : l.nextRecord D fuel capacity = some (r, n, l')) :
    l.next D fuel capacity = some (r, l') := by
  induction fuel generalizing capacity l with
  | zero => cases h
  | succ fuel ih =>
    rw [nextRecord] at h
    rw [next]
    rcases hturn : l.turn D capacity with ⟨t, l₁⟩
    rw [hturn] at h
    cases t with
    | again capacity' => exact ih h
    | _ =>
      cases h
      rfl

theorem nextRecord_mono {fuel fuel' : Nat} {r : Result × Nat × Lexer} (hle : fuel ≤ fuel')
    (h : l.nextRecord D fuel capacity = some r) : l.nextRecord D fuel' capacity = some r := by
  induction fuel generalizing fuel' capacity l with
  | zero => cases h
  | succ fuel ih =>
    obtain _ | fuel' := fuel'
    · omega
    · rw [nextRecord] at h ⊢
      rcases hturn : l.turn D capacity with ⟨t, l₁⟩
      rw [hturn] at h
      cases t with
      | again capacity' => exact ih (by omega) h
      | _ => exact h

end Lexer

/-! ## Methods that do not panic -/

/-- No panic from a state where `I` holds, and `I` holds of the state that is left. -/
abbrev Calm {σ α : Type} (I : σ → Prop) (x : Exec σ Error α) : Prop :=
  Exec.Ensures I x fun r s => r ≠ .panic ∧ I s

section
variable {σ α β : Type} {I : σ → Prop}

theorem calm_bind {x : Exec σ Error α} {f : α → Exec σ Error β} (hx : Calm I x)
    (hf : ∀ a, Calm I (f a)) : Calm I (x >>= f) :=
  Exec.Ensures.bind hx (fun a => (hf a).mono (fun _ h => h.2) fun _ _ h => h)
    (fun e _ h => ⟨err_ne_panic e, h.2⟩) fun _ h => absurd rfl h.1

theorem calm_pure (a : α) : Calm I (pure a : Exec σ Error α) := fun _ h => ⟨ok_ne_panic a, h⟩

theorem calm_fail (e : Error) : Calm I (Exec.fail e : Exec σ Error α) :=
  fun _ h => ⟨err_ne_panic e, h⟩

theorem calm_lift {x : Res Error α} (hx : x ≠ .panic) : Calm I (Exec.lift x : Exec σ Error α) :=
  fun _ h => ⟨hx, h⟩

theorem calm_modify {f : σ → σ} (h : ∀ s, I s → I (f s)) :
    Calm I (Exec.modify f : Exec σ Error Unit) :=
  fun s hs => ⟨ok_ne_panic (), h s hs⟩

theorem wrap_ne_panic {context : String} {x : Res Error α} (h : x ≠ .panic) :
    wrap context x ≠ .panic := by
  cases x with
  | ok a => exact ok_ne_panic a
  | err e => exact err_ne_panic _
  | panic => exact absurd rfl h

theorem calm_wrapping {context : String} {x : Exec σ Error α} (h : Calm I x) :
    Calm I (wrapping context x) :=
  fun s hs => ⟨wrap_ne_panic (h s hs).1, (h s hs).2⟩

end

theorem schemaOf_ne_panic (schemas : BTreeMap UInt16 Schema) (channel : Channel)
    (channelID : UInt16) : schemaOf schemas channel channelID ≠ .panic := by
  unfold schemaOf
  simp only
  split
  · exact err_ne_panic _
  · exact ok_ne_panic _

/-! ## The unindexed iterator -/

namespace UnindexedMessageIterator
variable {D : Unpackers} {it it' : UnindexedMessageIterator}

theorem calm_onMessage {I : UnindexedMessageIterator → Prop} (msg : Message) :
    Calm I (onMessage msg) := by
  refine Exec.Ensures.get_bind fun it h => ?_
  cases it.channels[msg.channelID]? with
  | none => exact calm_pure (I := I) none it h
  | some channel =>
    simp only
    split
    · exact calm_bind (calm_lift (schemaOf_ne_panic _ _ _)) (fun _ => calm_pure _) it h
    · exact calm_pure (I := I) none it h

theorem calm_onToken (t : Token) (l : Lexer) : Calm (fun it => it.lexer = l) (onToken t) := by
  unfold onToken
  split
  · refine calm_bind (calm_lift (wrap_ne_panic (parseSchema_ne_panic _))) fun schema => ?_
    exact calm_bind (calm_modify fun _ h => h) fun _ => calm_pure _
  · refine calm_bind (calm_lift (wrap_ne_panic (parseChannel_ne_panic _))) fun channelInfo => ?_
    refine calm_bind (calm_modify fun it h => ?_) fun _ => calm_pure _
    split <;> exact h
  · exact calm_bind (calm_lift (parseMessage_ne_panic _)) fun msg => calm_onMessage msg
  · refine Exec.Ensures.get_bind fun it h => ?_
    cases it.metadataCallback with
    | none => exact calm_pure (I := fun it => it.lexer = l) none it h
    | some callback =>
      refine calm_bind (I := fun it => it.lexer = l)
        (calm_lift (wrap_ne_panic (parseMetadata_ne_panic _))) (fun metadata => ?_) it h
      cases callback metadata with
      | some e => exact calm_fail _
      | none => exact calm_pure _
  · exact calm_pure _

theorem nextInto_mono {fuel fuel' : Nat} {r : Res Error Yield × UnindexedMessageIterator}
    (hle : fuel ≤ fuel') (h : it.nextInto D fuel = some r) : it.nextInto D fuel' = some r := by
  induction fuel generalizing fuel' it with
  | zero => cases h
  | succ fuel ih =>
    obtain _ | fuel' := fuel'
    · omega
    · rw [nextInto] at h ⊢
      cases hnext : it.lexer.nextRecord D (fuel + 1) it.room with
      | none =>
        rw [hnext] at h
        cases h
      | some p =>
        obtain ⟨r₁, n, l⟩ := p
        rw [Lexer.nextRecord_mono hle hnext]
        rw [hnext] at h
        cases r₁ with
        | token t =>
          simp only at h ⊢
          rcases htoken : onToken t { it with lexer := l, room := max it.room n } with
            ⟨(_ | y) | e | _, it₁⟩
          · rw [htoken] at h
            exact ih (by omega) h
          all_goals
            rw [htoken] at h
            exact h
        | fail type e => exact h
        | panic => exact h

theorem nextInto_token {fuel fuel' n : Nat} {t : Token} {l : Lexer} (hle : fuel ≤ fuel')
    (h : it.lexer.nextRecord D fuel it.room = some (.token t, n, l)) :
    it.nextInto D (fuel' + 1) =
      match onToken t { it with lexer := l, room := max it.room n } with
      | (.ok (some y), it) => some (.ok y, it)
      | (.ok none, it) => nextInto D fuel' it
      | (.err e, it) => some (.err e, it)
      | (.panic, it) => some (.panic, it) := by
  rw [nextInto, Lexer.nextRecord_mono (Nat.le_succ_of_le hle) h] <;> rfl

/-- **`NextInto` of the unindexed iterator returns.** -/
theorem nextInto_returns (h : it.lexer.Safe D) :
    ∃ fuel r it', it.nextInto D fuel = some (r, it') ∧ r ≠ .panic ∧ it'.lexer.Safe D := by
  obtain ⟨l, hl⟩ : ∃ l, it.lexer = l := ⟨_, rfl⟩
  induction l using Lexer.nearer_wf.induction generalizing it with
  | h l ih =>
    obtain ⟨fuel, r, n, l₁, hnext, hpanic, hsafe, hnear⟩ := Lexer.nextRecord_returns h it.room
    cases r with
    | fail type e =>
      refine ⟨fuel + 1, .err e, { it with lexer := l₁ }, ?_, err_ne_panic e, hsafe⟩
      rw [nextInto, Lexer.nextRecord_mono (Nat.le_succ fuel) hnext]
    | panic => exact absurd rfl hpanic
    | token t =>
      obtain ⟨it₁, hit₁⟩ : ∃ it₁, { it with lexer := l₁, room := max it.room n } = it₁ := ⟨_, rfl⟩
      have hlexer : it₁.lexer = l₁ := by rw [← hit₁]
      obtain ⟨hcalm, hkept⟩ := calm_onToken t l₁ it₁ hlexer
      have hstep := fun fuel' (hle : fuel ≤ fuel') => nextInto_token hle hnext
      rw [hit₁] at hstep
      rcases htoken : onToken t it₁ with ⟨(_ | y) | e | _, it₂⟩
      · rw [htoken] at hkept
        have hnear₂ : Lexer.Nearer l l₁ := hl ▸ hnear ⟨t, rfl⟩
        have hsafe₂ : it₂.lexer.Safe D := by
          rw [show it₂.lexer = l₁ from hkept]
          exact hsafe
        obtain ⟨fuel₂, r, it', hrun, hr, hsafe'⟩ := ih l₁ hnear₂ hsafe₂ hkept
        refine ⟨max fuel fuel₂ + 1, r, it', ?_, hr, hsafe'⟩
        rw [hstep _ (Nat.le_max_left _ _), htoken]
        exact nextInto_mono (Nat.le_max_right _ _) hrun
      · refine ⟨fuel + 1, .ok y, it₂, ?_, ok_ne_panic y, ?_⟩
        · rw [hstep _ (Nat.le_refl _), htoken]
        · rw [htoken] at hkept
          rw [show it₂.lexer = l₁ from hkept]
          exact hsafe
      · refine ⟨fuel + 1, .err e, it₂, ?_, err_ne_panic e, ?_⟩
        · rw [hstep _ (Nat.le_refl _), htoken]
        · rw [htoken] at hkept
          rw [show it₂.lexer = l₁ from hkept]
          exact hsafe
      · rw [htoken] at hcalm
        exact absurd rfl hcalm

end UnindexedMessageIterator

end Go
end Mcap
