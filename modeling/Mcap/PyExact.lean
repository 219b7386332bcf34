import Mcap.PyStreamReader

/-! # Reading a record from its own bytes

What a reader should make of a record depends on the bytes of its body only: `recordOf` reads it from
a stream of these bytes, in which a read that cannot be filled is an error.  The functions that read
a record are the library's own, with that method `read` (`exactly`).

`Follows p q n` says that `q` does what `p` does, wherever the bytes stand and whatever follows them.
It is closed under the ways in which readers are put together, so that it holds of each type of
record: a record that is whole is read from the middle of a stream as from its own bytes.
-/
namespace Mcap
namespace Py

/-! ## Readers that do the same -/

section
variable {α β : Type} {p q : Read PyError α} {n m : Nat} {x y : Except PyError α}

/-- **`q` does what `p` does**, where more bytes follow and at any position; `p` takes at least `n`
bytes. -/
def Follows (p q : Read PyError α) (n : Nat) : Prop :=
  ∀ c a c', p c = .ok (a, c') → c.pos + n ≤ c'.pos ∧
    c'.pos + c'.rest.length = c.pos + c.rest.length ∧
    ∀ more shift, q ⟨c.rest ++ more, shift + c.pos⟩ = .ok (a, ⟨c'.rest ++ more, shift + c'.pos⟩)

theorem run_bind (p : Read PyError α) (f : α → Read PyError β) (c : Cursor) :
    (p >>= f) c = (p c).bind fun x => f x.1 x.2 := rfl

theorem Follows.mono (h : Follows p q n) (hm : m ≤ n) : Follows p q m := by
  intro c a c' hp
  obtain ⟨hpos, hlen, hmore⟩ := h c a c' hp
  exact ⟨by omega, hlen, hmore⟩

theorem Follows.pure (a : α) : Follows (Pure.pure a) (Pure.pure a) 0 := by
  intro c a' c' hp
  cases hp
  exact ⟨Nat.le_refl _, rfl, fun _ _ => rfl⟩

theorem Follows.throw (e : PyError) : Follows (MonadExcept.throw e : Read PyError α) q n := by
  intro c a c' hp
  cases hp

theorem Follows.bind {f g : α → Read PyError β} (hp : Follows p q n)
    (hf : ∀ a, Follows (f a) (g a) m) : Follows (p >>= f) (q >>= g) (n + m) := by
  intro c b c'' h
  obtain ⟨a, c', hpc, h⟩ := run_bind_eq_ok h
  obtain ⟨hpos, hlen, hmore⟩ := hp c a c' hpc
  obtain ⟨hpos', hlen', hmore'⟩ := hf a c' b c'' h
  refine ⟨by omega, by omega, fun more shift => ?_⟩
  rw [run_bind, hmore more shift]
  exact hmore' more shift

theorem Follows.map (hp : Follows p q n) (f : α → β) : Follows (f <$> p) (f <$> q) n := by
  intro c b c' h
  have hrun : ∀ (p : Read PyError α) c, (f <$> p) c = (p c).bind fun x => .ok (f x.1, x.2) :=
    fun _ _ => rfl
  rw [hrun] at h
  obtain ⟨⟨a, c₁⟩, hpc, h⟩ := bind_eq_ok h
  cases h
  obtain ⟨hpos, hlen, hmore⟩ := hp c a _ hpc
  refine ⟨hpos, hlen, fun more shift => ?_⟩
  rw [hrun, hmore more shift]
  rfl

theorem Follows.ite {p' q' : Read PyError α} {φ : Prop} [Decidable φ] (h : Follows p q n)
    (h' : Follows p' q' n) : Follows (if φ then p else p') (if φ then q else q') n := by
  split
  · exact h
  · exact h'

theorem Follows.fold {stop : Nat} {step step' : β → Read PyError β}
    (hstep : ∀ b, Follows (step b) (step' b) 1) {fuel : Nat} {b b' : β} {c c' : Cursor}
    (hfuel : c.rest.length < fuel) (h : readFold stop step fuel b c = .ok (b', c')) :
    c.pos ≤ c'.pos ∧ c'.pos + c'.rest.length = c.pos + c.rest.length ∧
      ∀ more shift fuel', (c.rest ++ more).length < fuel' →
        readFold (shift + stop) step' fuel' b ⟨c.rest ++ more, shift + c.pos⟩ =
          .ok (b', ⟨c'.rest ++ more, shift + c'.pos⟩) := by
  induction fuel generalizing b c with
  | zero => omega
  | succ fuel ih =>
    unfold readFold at h
    by_cases hstop : c.pos < stop
    · rw [if_pos hstop] at h
      obtain ⟨b₁, c₁, hb, h⟩ := run_bind_eq_ok h
      obtain ⟨hpos, hlen, hmore⟩ := hstep b c b₁ c₁ hb
      obtain ⟨hpos', hlen', hmore'⟩ := ih (by omega) h
      refine ⟨by omega, by omega, fun more shift fuel' hfuel' => ?_⟩
      obtain _ | fuel' := fuel'
      · omega
      · unfold readFold
        rw [List.length_append] at hfuel'
        rw [if_pos (show shift + c.pos < shift + stop by omega), run_bind, hmore more shift]
        exact hmore' more shift fuel' (by rw [List.length_append]; omega)
    · rw [if_neg hstop] at h
      cases h
      refine ⟨Nat.le_refl _, rfl, fun more shift fuel' hfuel' => ?_⟩
      obtain _ | fuel' := fuel'
      · omega
      · have hend : ¬ shift + c'.pos < shift + stop := by omega
        unfold readFold
        exact if_neg hend

/-- Where a read and a check of it is the same, up to the exception. -/
def Same (x y : Except PyError α) : Prop := x.toOption = y.toOption

theorem same_bind {f g : α → Except PyError β} (h : Same x y)
    (hf : ∀ a, y = .ok a → Same (f a) (g a)) : Same (x.bind f) (y.bind g) := by
  cases x with
  | error e =>
    cases y with
    | error e' => rfl
    | ok a => cases h
  | ok a =>
    cases y with
    | error e' => cases h
    | ok a' =>
      cases h
      exact hf a rfl

theorem Same.symm (h : Same x y) : Same y x := Eq.symm h

theorem Same.eq_ok {a : α} (h : Same x y) (hy : y = .ok a) :
    x = .ok a := by
  subst hy
  cases x with
  | error e => cases h
  | ok a' =>
    cases h
    rfl

theorem Same.eq_error {e : PyError} (h : Same x y) (hy : y = .error e) :
    ∃ e', x = .error e' := by
  subst hy
  cases x with
  | error e' => exact ⟨e', rfl⟩
  | ok a => cases h

end

/-! ## Streams of a record's own bytes -/

/-- The method `read` of a stream that fills what it is asked for. -/
def exactly : ReadMethod := fun length c =>
  if length < 0 ∨ sysMaxsize < length.toNat then .error .overflowError
  else readExact .endOfFile length.toNat c

theorem exactly_eq_ok {length : Int} {c c' : Cursor} {data : Bytes}
    (h : exactly length c = .ok (data, c')) :
    0 ≤ length ∧ length.toNat ≤ sysMaxsize ∧ length.toNat ≤ c.rest.length ∧
      data = c.rest.take length.toNat ∧
      c' = ⟨c.rest.drop length.toNat, c.pos + length.toNat⟩ := by
  unfold exactly readExact at h
  split at h
  · cases h
  · split at h
    · cases h
    · cases h
      exact ⟨by omega, by omega, by omega, rfl, rfl⟩

theorem exactly_of_le {length : Int} {c : Cursor} (h : 0 ≤ length) (hmax : length.toNat ≤ sysMaxsize)
    (hle : length.toNat ≤ c.rest.length) :
    exactly length c =
      .ok (c.rest.take length.toNat, ⟨c.rest.drop length.toNat, c.pos + length.toNat⟩) := by
  unfold exactly readExact
  rw [if_neg (by omega), if_neg (by omega)]

theorem read_of_le {length : Int} {c : Cursor} (h : 0 ≤ length) (hmax : length.toNat ≤ sysMaxsize)
    (hle : length.toNat ≤ c.rest.length) :
    ReadDataStream.read length c =
      .ok (c.rest.take length.toNat, ⟨c.rest.drop length.toNat, c.pos + length.toNat⟩) := by
  unfold ReadDataStream.read
  by_cases hzero : length = 0
  · rw [if_pos hzero, hzero]
    rfl
  · have hlen : (c.rest.take length.toNat).length = length.toNat := by
      rw [List.length_take]
      omega
    have hne : c.rest.take length.toNat ≠ [] := fun hnil => by
      rw [hnil, List.length_nil] at hlen
      omega
    rw [if_neg hzero, if_neg (by omega)]
    simp only
    rw [if_neg (show ¬ length < 0 by omega), if_neg hne, hlen]

/-- A stream whose reads are those of the bytes in front of it, where there are enough. -/
def Extends (stream : ReadMethod) : Prop :=
  ∀ length, Follows (exactly length) (stream length) length.toNat

theorem follows_of_le {stream : ReadMethod}
    (h : ∀ (length : Int) (c : Cursor), 0 ≤ length → length.toNat ≤ sysMaxsize →
      length.toNat ≤ c.rest.length → stream length c =
        .ok (c.rest.take length.toNat, ⟨c.rest.drop length.toNat, c.pos + length.toNat⟩)) :
    Extends stream := by
  intro length c data c' hread
  obtain ⟨hpos, hmax, hle, rfl, rfl⟩ := exactly_eq_ok hread
  refine ⟨Nat.le_refl _, ?_, fun more shift => ?_⟩
  · simp only [List.length_drop]
    omega
  · rw [h length _ hpos hmax (by rw [List.length_append]; omega)]
    simp only
    rw [List.take_append_of_le_length hle, List.drop_append_of_le_length hle, Nat.add_assoc]

theorem extends_exactly : Extends exactly := follows_of_le fun _ _ => exactly_of_le

theorem extends_read : Extends ReadDataStream.read := follows_of_le fun _ _ => read_of_le

/-! ## Every type of record -/

theorem follows_unpack (w : Nat) (data : Bytes) : Follows (unpack w data) (unpack w data) 0 := by
  unfold unpack
  split
  · exact .pure _
  · exact .throw _

theorem follows_decode (data : Bytes) : Follows (decode data) (decode data) 0 := by
  unfold decode
  split
  · exact .pure _
  · exact .throw _

section
variable {stream : ReadMethod} (h : Extends stream)
include h

theorem follows_read1 : Follows (read1 exactly) (read1 stream) 1 :=
  (h 1).bind fun data => follows_unpack 1 data

theorem follows_read2 : Follows (read2 exactly) (read2 stream) 2 :=
  (h 2).bind fun data => follows_unpack 2 data

theorem follows_read4 : Follows (read4 exactly) (read4 stream) 4 :=
  (h 4).bind fun data => follows_unpack 4 data

theorem follows_read8 : Follows (read8 exactly) (read8 stream) 8 :=
  (h 8).bind fun data => follows_unpack 8 data

theorem follows_data (length : Int) : Follows (exactly length) (stream length) 0 :=
  (h length).mono (Nat.zero_le _)

theorem follows_readPrefixedString :
    Follows (readPrefixedString exactly) (readPrefixedString stream) 4 :=
  (follows_read4 h).bind fun length => (follows_data h length).bind fun data => follows_decode data

theorem follows_readWhile {β : Type} {step step' : β → Read PyError β}
    (hstep : ∀ b, Follows (step b) (step' b) 1) (b : β) :
    Follows (readWhile exactly step b) (readWhile stream step' b) 4 := by
  refine (follows_read4 h).bind (m := 0) fun length c b' c' hrun => ?_
  have hget : ∀ (step : β → Read PyError β) (c : Cursor), (get >>= fun c =>
      readFold (c.pos + length) step (c.rest.length + 1) b : Read PyError β) c =
        readFold (c.pos + length) step (c.rest.length + 1) b c := fun _ _ => rfl
  rw [hget] at hrun
  obtain ⟨hpos, hlen, hmore⟩ := Follows.fold hstep (Nat.lt_succ_self _) hrun
  refine ⟨hpos, hlen, fun more shift => ?_⟩
  rw [hget]
  simp only
  rw [Nat.add_assoc]
  exact hmore more shift _ (Nat.lt_succ_self _)

theorem follows_readStringMap : Follows (readStringMap exactly) (readStringMap stream) 4 :=
  follows_readWhile h (fun _ => ((follows_readPrefixedString h).bind fun _ =>
    (follows_readPrefixedString h).bind fun _ => .pure _).mono (by decide)) ∅

theorem follows_readIdMap : Follows (readIdMap exactly) (readIdMap stream) 4 :=
  follows_readWhile h (fun _ => ((follows_read2 h).bind fun _ =>
    (follows_read8 h).bind fun _ => .pure _).mono (by decide)) ∅

theorem follows_attachment : Follows (Attachment.read exactly) (Attachment.read stream) 0 :=
  ((follows_read8 h).bind fun _ => (follows_read8 h).bind fun _ =>
    (follows_readPrefixedString h).bind fun _ => (follows_readPrefixedString h).bind fun _ =>
    (follows_read8 h).bind fun length => (follows_data h length).bind fun _ =>
    (follows_read4 h).bind fun _ => .pure _).mono (Nat.zero_le _)

theorem follows_attachmentIndex :
    Follows (AttachmentIndex.read exactly) (AttachmentIndex.read stream) 0 :=
  ((follows_read8 h).bind fun _ => (follows_read8 h).bind fun _ => (follows_read8 h).bind fun _ =>
    (follows_read8 h).bind fun _ => (follows_read8 h).bind fun _ =>
    (follows_readPrefixedString h).bind fun _ => (follows_readPrefixedString h).bind fun _ =>
    .pure _).mono (Nat.zero_le _)

theorem follows_channel : Follows (Channel.read exactly) (Channel.read stream) 0 :=
  ((follows_read2 h).bind fun _ => (follows_read2 h).bind fun _ =>
    (follows_readPrefixedString h).bind fun _ => (follows_readPrefixedString h).bind fun _ =>
    (follows_readStringMap h).bind fun _ => .pure _).mono (Nat.zero_le _)

theorem follows_chunk : Follows (Chunk.read exactly) (Chunk.read stream) 0 :=
  ((follows_read8 h).bind fun _ => (follows_read8 h).bind fun _ => (follows_read8 h).bind fun _ =>
    (follows_read4 h).bind fun _ => (follows_readPrefixedString h).bind fun _ =>
    (follows_read8 h).bind fun length => (follows_data h length).bind fun _ =>
    .pure _).mono (Nat.zero_le _)

theorem follows_chunkIndex : Follows (ChunkIndex.read exactly) (ChunkIndex.read stream) 0 :=
  ((follows_read8 h).bind fun _ => (follows_read8 h).bind fun _ => (follows_read8 h).bind fun _ =>
    (follows_read8 h).bind fun _ => (follows_readIdMap h).bind fun _ => (follows_read8 h).bind fun _ =>
    (follows_readPrefixedString h).bind fun _ => (follows_read8 h).bind fun _ =>
    (follows_read8 h).bind fun _ => .pure _).mono (Nat.zero_le _)

theorem follows_dataEnd : Follows (DataEnd.read exactly) (DataEnd.read stream) 0 :=
  ((follows_read4 h).bind fun _ => .pure _).mono (Nat.zero_le _)

theorem follows_footer : Follows (Footer.read exactly) (Footer.read stream) 0 :=
  ((follows_read8 h).bind fun _ => (follows_read8 h).bind fun _ => (follows_read4 h).bind fun _ =>
    .pure _).mono (Nat.zero_le _)

theorem follows_header : Follows (Header.read exactly) (Header.read stream) 0 :=
  ((follows_readPrefixedString h).bind fun _ => (follows_readPrefixedString h).bind fun _ =>
    .pure _).mono (Nat.zero_le _)

theorem follows_message (length : Nat) :
    Follows (Message.read exactly length) (Message.read stream length) 0 :=
  ((follows_read2 h).bind fun _ => (follows_read4 h).bind fun _ => (follows_read8 h).bind fun _ =>
    (follows_read8 h).bind fun _ => (follows_data h _).bind fun _ => .pure _).mono (Nat.zero_le _)

theorem follows_messageIndex : Follows (MessageIndex.read exactly) (MessageIndex.read stream) 0 :=
  ((follows_read2 h).bind fun _ => (follows_readWhile h (fun _ => ((follows_read8 h).bind fun _ =>
    (follows_read8 h).bind fun _ => .pure _).mono (by decide)) []).bind fun _ => .pure _).mono
      (Nat.zero_le _)

theorem follows_metadata : Follows (Metadata.read exactly) (Metadata.read stream) 0 :=
  ((follows_readPrefixedString h).bind fun _ => (follows_readStringMap h).bind fun _ =>
    .pure _).mono (Nat.zero_le _)

theorem follows_metadataIndex :
    Follows (MetadataIndex.read exactly) (MetadataIndex.read stream) 0 :=
  ((follows_read8 h).bind fun _ => (follows_read8 h).bind fun _ =>
    (follows_readPrefixedString h).bind fun _ => .pure _).mono (Nat.zero_le _)

theorem follows_schema : Follows (Schema.read exactly) (Schema.read stream) 0 :=
  ((follows_read2 h).bind fun _ => (follows_readPrefixedString h).bind fun _ =>
    (follows_readPrefixedString h).bind fun _ => (follows_read4 h).bind fun length =>
    (follows_data h length).bind fun _ => .pure _).mono (Nat.zero_le _)

theorem follows_statistics : Follows (Statistics.read exactly) (Statistics.read stream) 0 :=
  ((follows_read8 h).bind fun _ => (follows_read2 h).bind fun _ => (follows_read4 h).bind fun _ =>
    (follows_read4 h).bind fun _ => (follows_read4 h).bind fun _ => (follows_read4 h).bind fun _ =>
    (follows_read8 h).bind fun _ => (follows_read8 h).bind fun _ =>
    (follows_readIdMap h).bind fun _ => .pure _).mono (Nat.zero_le _)

theorem follows_summaryOffset :
    Follows (SummaryOffset.read exactly) (SummaryOffset.read stream) 0 :=
  ((follows_read1 h).bind fun _ => (follows_read8 h).bind fun _ => (follows_read8 h).bind fun _ =>
    .pure _).mono (Nat.zero_le _)

/-- **A record that is whole is read from a stream as from its own bytes.** -/
theorem follows_readRecord (opcode : UInt8) (length : Nat) :
    Follows (readRecord exactly opcode length) (readRecord stream opcode length) 0 := by
  unfold readRecord
  refine .ite (((follows_attachment h).map _).map _) ?_
  refine .ite (((follows_attachmentIndex h).map _).map _) ?_
  refine .ite (((follows_channel h).map _).map _) ?_
  refine .ite (((follows_chunk h).map _).map _) ?_
  refine .ite (((follows_chunkIndex h).map _).map _) ?_
  refine .ite (((follows_dataEnd h).map _).map _) ?_
  refine .ite (((follows_footer h).map _).map _) ?_
  refine .ite (((follows_header h).map _).map _) ?_
  refine .ite (((follows_message h length).map _).map _) ?_
  refine .ite (((follows_messageIndex h).map _).map _) ?_
  refine .ite (((follows_metadata h).map _).map _) ?_
  refine .ite (((follows_metadataIndex h).map _).map _) ?_
  refine .ite (((follows_schema h).map _).map _) ?_
  refine .ite (((follows_statistics h).map _).map _) ?_
  refine .ite (((follows_summaryOffset h).map _).map _) ?_
  exact (follows_data h length).bind fun _ => .pure _

theorem follows_readChunkRecord (opcode : UInt8) (length : Nat) :
    Follows (readChunkRecord exactly opcode length) (readChunkRecord stream opcode length) 0 := by
  unfold readChunkRecord
  refine .ite ((follows_channel h).bind fun _ => .pure _) ?_
  refine .ite ((follows_message h length).bind fun _ => .pure _) ?_
  refine .ite ((follows_schema h).bind fun _ => .pure _) ?_
  exact (follows_data h length).bind fun _ => .pure _

end

end Py
end Mcap
