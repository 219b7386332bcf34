import Mcap.TsFiles

/-! # The stream reader does not depend on how a file is cut

Whatever a generator waits for, it is there in full in the view or the generator goes on to wait
(`turn_ahead`), since a record that is whole is parsed in any view, and a part of it is not.  So the
calls of `nextRecord` return the records of a file one by one, as far as the file has been appended
(`Reads`), and `fragments_read` is the run of any calls.
-/
namespace Mcap
namespace Ts

open Reader McapStreamReader

/-! ## Turns -/

section
variable {decode : Bytes → String} {opts : McapReaderOptions}

theorem prefix_cases {part first rest : Bytes} (h : part <+: first ++ rest) :
    (∃ part', part = first ++ part' ∧ part' <+: rest) ∨
      ∃ missing, part ++ missing = first ∧ missing ≠ [] := by
  rcases Nat.lt_or_ge part.length first.length with hlt | hge
  · obtain ⟨missing, hmissing⟩ :=
      List.prefix_of_prefix_length_le h (List.prefix_append first rest) hlt.le
    refine .inr ⟨missing, hmissing, ?_⟩
    rintro rfl
    rw [List.append_nil] at hmissing
    rw [hmissing] at hlt
    exact Nat.lt_irrefl _ hlt
  · obtain ⟨part', rfl⟩ := List.prefix_of_prefix_length_le (List.prefix_append first rest) h hge
    exact .inl ⟨part', rfl, (List.prefix_append_right_inj first).mp h⟩

theorem parseMagic_whole (front rest : Bytes) :
    parseMagic ⟨front ++ (MAGIC ++ rest), front.length⟩ =
      .ok (some (), ⟨front ++ (MAGIC ++ rest), front.length + MAGIC.length⟩) := by
  unfold parseMagic
  show (if (Reader.mk _ _).bytesRemaining < MAGIC.length then _ else _ : Read _) _ = _
  rw [if_neg (by unfold bytesRemaining; simp only [List.length_append]; omega)]
  show (if ((front ++ (MAGIC ++ rest)).drop front.length).take (MAGIC.length : Int).toNat ≠ MAGIC
    then _ else _ : Read _) _ = _
  rw [List.drop_left, Int.toNat_natCast, List.take_left, if_neg (by exact fun h => h rfl)]
  rfl

theorem parseMagic_part {front part : Bytes} (h : part.length < MAGIC.length) :
    parseMagic ⟨front ++ part, front.length⟩ = .ok (none, ⟨front ++ part, front.length⟩) := by
  unfold parseMagic
  show (if (Reader.mk _ _).bytesRemaining < MAGIC.length then _ else _ : Read _) _ = _
  rw [if_pos (by unfold bytesRemaining; simp only [List.length_append]; omega)]
  rfl

variable (decode opts) in
/-- **What a call of the generator comes to**: it waits for bytes that are not there, or yields the
next record, or returns the last one. -/
inductive Advance (front part bytes : Bytes) (records : List TypedMcapRecord) : Turn → Prop
  | waits {consumed part' bytes' generator} (hpart : part = consumed ++ part')
      (hbytes : bytes = consumed ++ bytes') (hne : part' ≠ bytes')
      (h : Ahead decode opts generator bytes' records) :
      Advance front part bytes records (.yields none generator (front.length + consumed.length))
  | record {consumed part' bytes' generator record records'} (hpart : part = consumed ++ part')
      (hbytes : bytes = consumed ++ bytes') (hrecords : records = record :: records')
      (h : Ahead decode opts generator bytes' records') :
      Advance front part bytes records
        (.yields (some record) generator (front.length + consumed.length))
  | last {footer} (hpart : part = bytes) (hrecords : records = [.footer footer]) :
      Advance front part bytes records (.returns footer (front.length + part.length))

/-- How far a generator is from waiting for bytes. -/
def Generator.rank : Generator → Nat
  | .chunk .. => 2
  | .inChunk .. => 1
  | _ => 0

variable (decode opts) in
/-- A turn that goes on with fewer bytes, or nearer to waiting for some. -/
structure Onward (front part bytes : Bytes) (records : List TypedMcapRecord)
    (generator : Generator) (offset : Nat) (bound : Nat) : Prop where
  step : ∃ consumed part' bytes', part = consumed ++ part' ∧ bytes = consumed ++ bytes' ∧
    offset = front.length + consumed.length ∧ part'.length + generator.rank < bound ∧
    Ahead decode opts generator bytes' records

variable {front part bytes : Bytes} {records : List TypedMcapRecord} {generator : Generator}
  {record : TypedMcapRecord} {channelsById : Dict Nat Channel} {s' : McapStreamReader}

theorem Advance.stays (hne : part ≠ bytes) (h : Ahead decode opts generator bytes records) :
    Advance decode opts front part bytes records (.yields none generator front.length) := by
  have hwaits : Advance decode opts front part bytes records _ :=
    .waits (List.nil_append part).symm (List.nil_append bytes).symm hne h
  rwa [List.length_nil, Nat.add_zero] at hwaits

theorem Advance.unpacked (h : Ahead decode opts generator bytes records) :
    Advance decode opts front part bytes (record :: records)
      (.yields (some record) generator front.length) := by
  have hrecord : Advance decode opts front part bytes (record :: records) _ :=
    .record (List.nil_append part).symm (List.nil_append bytes).symm rfl h
  rwa [List.length_nil, Nat.add_zero] at hrecord

theorem turn_record {p : Piece} {header : Option Header} {rest : Bytes} (hwhole : p.Whole decode opts)
    (hpart : part <+: p.bytes ++ rest) (hmax : (front ++ part).length ≤ MAX_SAFE_INTEGER)
    (hsize : (p.bytes ++ rest).length ≤ MAX_SAFE_INTEGER) :
    (∃ part', part = p.bytes ++ part' ∧ part' <+: rest ∧
      turn decode opts (front ++ part) (.records header) front.length =
        onRecord opts header p.record (front.length + p.bytes.length)) ∨
    (part ≠ p.bytes ++ rest ∧ turn decode opts (front ++ part) (.records header) front.length =
      .ok (.yields none (.records header) front.length)) := by
  have hturn : turn decode opts (front ++ part) (.records header) front.length =
      (parseRecord decode opts.validateCrcs ⟨front ++ part, front.length⟩).bind _ := rfl
  rcases prefix_cases hpart with ⟨part', rfl, hpart'⟩ | ⟨missing, hmissing, hne⟩
  · refine .inl ⟨part', rfl, hpart', ?_⟩
    rw [hturn]
    unfold Piece.bytes at hmax ⊢
    rw [parseRecord_whole hwhole front part' hmax]
    rfl
  · have hbody : p.body.length ≤ MAX_SAFE_INTEGER := by
      have hlength : p.bytes.length = 9 + p.body.length := length_frame p.opcode p.body
      rw [List.length_append] at hsize
      omega
    refine .inr ⟨?_, ?_⟩
    · intro heq
      have hlength := congrArg List.length heq
      have hlength' := congrArg List.length hmissing
      have hpos := List.length_pos_iff.mpr hne
      simp only [List.length_append] at hlength hlength'
      omega
    · rw [hturn, parseRecord_part front part missing hmissing hne hbody]
      rfl

/-- **A turn of a generator.** -/
theorem turn_ahead (h : Ahead decode opts generator bytes records) (hpart : part <+: bytes)
    (hmax : (front ++ part).length ≤ MAX_SAFE_INTEGER) (hsize : bytes.length ≤ MAX_SAFE_INTEGER) :
    (∃ t, turn decode opts (front ++ part) generator front.length = .ok t ∧
      Advance decode opts front part bytes records t) ∨
    ∃ generator' offset, turn decode opts (front ++ part) generator front.length =
        .ok (.again generator' offset) ∧
      Onward decode opts front part bytes records generator' offset
        (part.length + generator.rank) := by
  have hahead := h
  cases h with
  | magic h =>
    rename_i bytes
    have hturn : turn decode opts (front ++ part) .magic front.length =
        (parseMagic ⟨front ++ part, front.length⟩).bind _ := rfl
    rcases prefix_cases hpart with ⟨part', rfl, -⟩ | ⟨missing, hmissing, hne⟩
    · refine .inr ⟨.records none, _, by rw [hturn, parseMagic_whole]; rfl,
        ⟨MAGIC, part', bytes, rfl, rfl, rfl, ?_, h⟩⟩
      rw [List.length_append, MAGIC_length]
      show part'.length + 0 < 8 + part'.length + 0
      omega
    · have hlength := congrArg List.length hmissing
      have hpos := List.length_pos_iff.mpr hne
      rw [List.length_append] at hlength
      refine .inl ⟨_, by rw [hturn, parseMagic_part (by omega)]; rfl, .stays ?_ hahead⟩
      rintro rfl
      rw [List.length_append] at hlength
      omega
  | plain p hwhole hplain h =>
    rcases turn_record hwhole hpart hmax hsize with ⟨part', rfl, -, hturn⟩ | ⟨hne, hturn⟩
    · exact .inl ⟨_, hturn.trans (hplain _), .record rfl rfl rfl h⟩
    · exact .inl ⟨_, hturn, .stays hne hahead⟩
  | header p record hwhole hrecord h =>
    rcases turn_record hwhole hpart hmax hsize with ⟨part', rfl, -, hturn⟩ | ⟨hne, hturn⟩
    · rw [hrecord] at hturn
      exact .inl ⟨_, hturn, .record rfl rfl rfl h⟩
    · exact .inl ⟨_, hturn, .stays hne hahead⟩
  | chunk p chunk hwhole hrecord h =>
    rename_i bytes records header
    rcases turn_record hwhole hpart hmax hsize with ⟨part', rfl, -, hturn⟩ | ⟨hne, hturn⟩
    · rw [hrecord] at hturn
      change _ = (if opts.includeChunks then _ else _) at hturn
      cases hinclude : opts.includeChunks with
      | true =>
        rw [hinclude, if_pos rfl] at hturn
        rw [if_pos rfl]
        exact .inl ⟨_, hturn, .record rfl rfl rfl h⟩
      | false =>
        rw [hinclude, if_neg Bool.false_ne_true] at hturn
        rw [if_neg Bool.false_ne_true]
        refine .inr ⟨_, _, hturn, ⟨p.bytes, part', _, rfl, rfl, rfl, ?_, h⟩⟩
        have hlength : p.bytes.length = 9 + p.body.length := length_frame p.opcode p.body
        rw [List.length_append]
        show part'.length + 2 < p.bytes.length + part'.length + 0
        omega
    · exact .inl ⟨_, hturn, .stays hne hahead⟩
  | unpacks hbuffer h =>
    rename_i header chunk buffer
    have hturn : turn decode opts (front ++ part) (.chunk header chunk) front.length =
        (chunkBuffer opts header chunk).bind fun buffer =>
          .ok (.again (.inChunk header ⟨buffer, 0⟩) front.length) := rfl
    refine .inr ⟨_, _, by rw [hturn, hbuffer]; rfl, ⟨[], part, bytes, rfl, rfl, rfl, ?_, h⟩⟩
    exact Nat.lt_succ_self _
  | inner hparse hallowed h =>
    rename_i header r r' record records
    have hturn : turn decode opts (front ++ part) (.inChunk header r) front.length =
        (parseRecord decode opts.validateCrcs r).bind _ := rfl
    refine .inl ⟨.yields (some record) (.inChunk header r') front.length, ?_, ?_⟩
    · rw [hturn, hparse]
      exact if_pos hallowed
    · exact .unpacked h
  | close hparse hempty h =>
    rename_i header r r'
    have hturn : turn decode opts (front ++ part) (.inChunk header r) front.length =
        (parseRecord decode opts.validateCrcs r).bind _ := rfl
    refine .inr ⟨.records header, front.length, ?_, ⟨[], part, bytes, rfl, rfl, rfl, ?_, h⟩⟩
    · rw [hturn, hparse]
      exact if_neg (not_not.mpr hempty)
    · exact Nat.lt_succ_self _
  | footer p footer hwhole hrecord h =>
    rcases turn_record hwhole hpart hmax hsize with ⟨part', rfl, -, hturn⟩ | ⟨hne, hturn⟩
    · rw [hrecord] at hturn
      refine .inr ⟨_, _, hturn, ⟨p.bytes, part', _, rfl, rfl, rfl, ?_, h⟩⟩
      have hlength : p.bytes.length = 9 + p.body.length := length_frame p.opcode p.body
      rw [List.length_append]
      show part'.length + 0 < p.bytes.length + part'.length + 0
      omega
    · exact .inl ⟨_, hturn, .stays hne hahead⟩
  | last =>
    rename_i header footer
    rw [← List.append_nil MAGIC] at hpart
    rcases prefix_cases hpart with ⟨part', rfl, hpart'⟩ | ⟨missing, hmissing, hne⟩
    · obtain rfl := List.prefix_nil.mp hpart'
      refine .inl ⟨.returns footer (front.length + MAGIC.length), ?_, ?_⟩
      · simp only [turn, parseMagic_whole]
        refine if_neg (not_not.mpr ?_)
        unfold bytesRemaining
        simp only [List.length_append, List.length_nil]
        omega
      · rw [List.append_nil]
        exact .last rfl rfl
    · have hlength := congrArg List.length hmissing
      have hpos := List.length_pos_iff.mpr hne
      rw [List.length_append] at hlength
      refine .inl ⟨_, by simp only [turn, parseMagic_part (show part.length < MAGIC.length by omega)],
        .stays ?_ hahead⟩
      rintro rfl
      omega

theorem Advance.behind {consumed : Bytes} {t : Turn}
    (h : Advance decode opts (front ++ consumed) part bytes records t) :
    Advance decode opts front (consumed ++ part) (consumed ++ bytes) records t := by
  cases h with
  | waits hpart hbytes hne h =>
    rename_i more part' bytes' generator
    rw [List.length_append, Nat.add_assoc, ← List.length_append]
    exact .waits (by rw [hpart, List.append_assoc]) (by rw [hbytes, List.append_assoc]) hne h
  | record hpart hbytes hrecords h =>
    rename_i more part' bytes' generator record records'
    rw [List.length_append, Nat.add_assoc, ← List.length_append]
    exact .record (by rw [hpart, List.append_assoc]) (by rw [hbytes, List.append_assoc]) hrecords h
  | last hpart hrecords =>
    rw [List.length_append, Nat.add_assoc, ← List.length_append]
    exact .last (by rw [hpart]) hrecords

/-- **A call of the generator.** -/
theorem next_ahead {fuel : Nat} (h : Ahead decode opts generator bytes records)
    (hpart : part <+: bytes) (hmax : (front ++ part).length ≤ MAX_SAFE_INTEGER)
    (hsize : bytes.length ≤ MAX_SAFE_INTEGER) (hfuel : part.length + generator.rank < fuel) :
    ∃ t, next decode opts (front ++ part) fuel generator front.length = .ok t ∧
      Advance decode opts front part bytes records t := by
  induction fuel generalizing front part bytes generator with
  | zero => omega
  | succ fuel ih =>
    have hnext : next decode opts (front ++ part) (fuel + 1) generator front.length =
        (turn decode opts (front ++ part) generator front.length).bind _ := rfl
    rcases turn_ahead h hpart hmax hsize with ⟨t, hturn, hadvance⟩ | ⟨generator', offset, hturn, ⟨hstep⟩⟩
    · refine ⟨t, ?_, hadvance⟩
      rw [hnext, hturn]
      cases hadvance <;> rfl
    · obtain ⟨consumed, part', bytes', rfl, rfl, rfl, hrank, hahead⟩ := hstep
      rw [List.length_append] at hsize
      rw [← List.append_assoc] at hmax
      obtain ⟨t, hmore, hadvance⟩ := ih hahead ((List.prefix_append_right_inj consumed).mp hpart) hmax
        (by omega) (by omega)
      refine ⟨t, ?_, hadvance.behind⟩
      rw [hnext, hturn]
      rw [List.append_assoc, List.length_append] at hmore
      exact hmore

/-! ## Channels -/

/-- **The channels that are known** behind some records. -/
structure Noted (channelsById : Dict Nat Channel) (records : List TypedMcapRecord) : Prop where
  sound : ∀ id channel, channelsById.get? id = some channel →
    .channel channel ∈ records ∧ channel.id = id
  complete : ∀ channel, .channel channel ∈ records → channelsById.get? channel.id ≠ none

theorem noted_empty : Noted ∅ [] where
  sound _ _ h := by cases h
  complete _ h := absurd h List.not_mem_nil

theorem Noted.append (h : Noted channelsById records)
    (hrecord : ∀ channel, record ≠ .channel channel) :
    Noted channelsById (records ++ [record]) where
  sound id channel hget :=
    ⟨List.mem_append_left _ (h.sound id channel hget).1, (h.sound id channel hget).2⟩
  complete channel hmem := by
    rcases List.mem_append.mp hmem with hmem | hmem
    · exact h.complete channel hmem
    · exact absurd (List.mem_singleton.mp hmem).symm (hrecord channel)

theorem Noted.set (h : Noted channelsById records) (channel : Channel) :
    Noted (channelsById.set channel.id channel) (records ++ [.channel channel]) where
  sound id channel' hget := by
    by_cases hid : id = channel.id
    · subst hid
      rw [Dict.get?_set_self] at hget
      cases hget
      exact ⟨List.mem_append_right _ List.mem_cons_self, rfl⟩
    · rw [Dict.get?_set_ne hid] at hget
      exact ⟨List.mem_append_left _ (h.sound id channel' hget).1, (h.sound id channel' hget).2⟩
  complete channel' hmem := by
    by_cases hid : channel'.id = channel.id
    · rw [hid, Dict.get?_set_self]
      exact Option.some_ne_none channel
    · rw [Dict.get?_set_ne hid]
      rcases List.mem_append.mp hmem with hmem | hmem
      · exact h.complete channel' hmem
      · cases List.mem_singleton.mp hmem
        exact absurd rfl hid

/-- **A record of a consistent file is accepted.** -/
theorem noteChannel_eq_ok {front back : List TypedMcapRecord}
    (hconsistent : Consistent (front ++ record :: back)) (h : Noted channelsById front) :
    ∃ channelsById', noteChannel channelsById (some record) = .ok channelsById' ∧
      Noted channelsById' (front ++ [record]) := by
  cases record with
  | channel channel =>
    refine ⟨channelsById.set channel.id channel, ?_, h.set channel⟩
    unfold noteChannel
    cases hget : channelsById.get? channel.id with
    | none => simp only [hget]
    | some existing =>
      obtain ⟨hmem, hid⟩ := h.sound channel.id existing hget
      simp only [hget]
      exact if_pos (hconsistent.channels front channel back rfl existing hmem hid)
  | message message =>
    obtain ⟨channel, hmem, hid⟩ := hconsistent.messages front message back rfl
    refine ⟨channelsById, if_neg ?_, h.append fun channel => by simp⟩
    have hsome := h.complete channel hmem
    rw [hid] at hsome
    rw [Option.isNone_iff_eq_none]
    exact hsome
  | _ => exact ⟨channelsById, rfl, h.append fun channel => by simp⟩

/-! ## The buffer -/

/-- The bytes that have not been consumed. -/
def McapStreamReader.unconsumed (s : McapStreamReader) : Bytes := s.view.drop s.offset

/-- **A view in its buffer**, and an offset in the view. -/
structure Fits (s : McapStreamReader) : Prop where
  view : s.byteOffset + s.byteLength ≤ s.buffer.length
  offset : s.offset ≤ s.byteLength

theorem Fits.length_view {s : McapStreamReader} (h : Fits s) : s.view.length = s.byteLength := by
  unfold McapStreamReader.view
  have hview := h.view
  rw [List.length_take, List.length_drop]
  omega

theorem setBytes_twice (array existing data : Bytes) :
    setBytes (setBytes array existing 0) data existing.length =
      existing ++ (data ++ array.drop (existing.length + data.length)) := by
  unfold setBytes
  rw [List.take_zero, List.nil_append, List.take_left, List.drop_append, Nat.zero_add,
    List.drop_eq_nil_of_le (by omega), List.nil_append, List.drop_drop, List.append_assoc]
  congr 3
  omega

/-- **What is appended is behind what has not been consumed**, wherever that is moved. -/
theorem appendOrShift_spec {s : McapStreamReader} (h : Fits s) (data : Bytes) :
    Fits (s.appendOrShift data) ∧ (s.appendOrShift data).unconsumed = s.unconsumed ++ data ∧
      (s.appendOrShift data).byteLength ≤ s.byteLength + data.length := by
  have hview := h.view
  have hoffset := h.offset
  have hexisting : (s.buffer.drop (s.byteOffset + s.offset)).take (s.byteLength - s.offset) =
      s.unconsumed := by
    unfold McapStreamReader.unconsumed McapStreamReader.view
    rw [List.drop_take, List.drop_drop]
  have hlength : s.unconsumed.length = s.byteLength - s.offset := by
    unfold McapStreamReader.unconsumed
    rw [List.length_drop, h.length_view]
  -- the two cases in which the bytes are moved
  have hmoved : ∀ (s' : McapStreamReader) (array : Bytes),
      s.unconsumed.length + data.length ≤ array.length →
      s'.buffer = setBytes (setBytes array s.unconsumed 0) data s.unconsumed.length →
      s'.byteOffset = 0 → s'.byteLength = s.unconsumed.length + data.length → s'.offset = 0 →
      Fits s' ∧ s'.unconsumed = s.unconsumed ++ data ∧
        s'.byteLength ≤ s.byteLength + data.length := by
    intro s' array hfits hbuffer hbyteOffset hbyteLength hoffset'
    rw [setBytes_twice] at hbuffer
    refine ⟨⟨?_, by omega⟩, ?_, by omega⟩
    · rw [hbuffer, hbyteOffset, hbyteLength]
      simp only [List.length_append]
      omega
    · have hview' : s'.view = s.unconsumed ++ data := by
        unfold McapStreamReader.view
        rw [hbyteOffset, List.drop_zero, hbyteLength, hbuffer, ← List.append_assoc,
          List.take_left' List.length_append]
      show s'.view.drop s'.offset = _
      rw [hoffset', List.drop_zero, hview']
  unfold McapStreamReader.appendOrShift
  simp only [hexisting]
  split
  · rename_i hfits
    split
    · rename_i hbehind
      have hview' : (McapStreamReader.mk (setBytes s.buffer data (s.byteOffset + s.byteLength))
          s.byteOffset (s.byteLength + data.length) s.offset s.generator s.channelsById
          s.doneReading).view = s.view ++ data := by
        unfold McapStreamReader.view setBytes
        dsimp only
        rw [List.append_assoc, List.drop_append_of_le_length (by rw [List.length_take]; omega),
          ← List.append_assoc, List.drop_take, Nat.add_sub_cancel_left, List.take_left']
        rw [List.length_append, List.length_take, List.length_drop]
        omega
      refine ⟨⟨?_, by dsimp only; omega⟩, ?_, Nat.le_refl _⟩
      · unfold setBytes
        simp only [List.length_append, List.length_take, List.length_drop]
        omega
      · unfold McapStreamReader.unconsumed
        rw [hview']
        exact List.drop_append_of_le_length (by rw [h.length_view]; exact hoffset)
    · exact hmoved _ s.buffer (by omega) rfl rfl rfl rfl
  · exact hmoved _ (List.replicate ((s.byteLength - s.offset + data.length) * 2) 0)
      (by rw [List.length_replicate]; omega) rfl rfl rfl rfl

/-! ## Runs -/

variable (decode opts) in
/-- **A reader in a file**, of which some bytes have been appended and some records returned. -/
structure Reading (file : Bytes) (all : List TypedMcapRecord) (appended : Bytes)
    (returned : List TypedMcapRecord) (s : McapStreamReader) : Prop where
  live : s.doneReading = false
  fits : Fits s
  within : s.byteLength ≤ appended.length
  noted : Noted s.channelsById returned
  ahead : ∃ consumed bytes records, file = consumed ++ bytes ∧
    appended = consumed ++ s.unconsumed ∧ all = returned ++ records ∧
    Ahead decode opts s.generator bytes records

/-- A reader at the end of a file. -/
structure Finished (file : Bytes) (all : List TypedMcapRecord) (appended : Bytes)
    (returned : List TypedMcapRecord) (s : McapStreamReader) : Prop where
  done : s.doneReading = true
  appended : appended = file
  returned : returned = all
  unconsumed : s.unconsumed = []

variable {file appended : Bytes} {all returned : List TypedMcapRecord} {s : McapStreamReader}

/-- **An append.** -/
theorem Reading.append (h : Reading decode opts file all appended returned s) (data : Bytes) :
    ∃ s', s.append data = .ok s' ∧
      Reading decode opts file all (appended ++ data) returned s' := by
  obtain ⟨hfits, hunconsumed, hlength⟩ := appendOrShift_spec h.fits data
  obtain ⟨consumed, bytes, records, hfile, happended, hall, hahead⟩ := h.ahead
  have hwithin := h.within
  have hsame : (s.appendOrShift data).doneReading = s.doneReading ∧
      (s.appendOrShift data).channelsById = s.channelsById ∧
      (s.appendOrShift data).generator = s.generator := by
    unfold McapStreamReader.appendOrShift
    dsimp only
    split
    · split <;> exact ⟨rfl, rfl, rfl⟩
    · exact ⟨rfl, rfl, rfl⟩
  refine ⟨s.appendOrShift data, ?_, ⟨by rw [hsame.1, h.live], hfits, ?_, ?_, consumed, bytes, records,
    hfile, ?_, hall, ?_⟩⟩
  · unfold McapStreamReader.append
    rw [h.live, if_neg Bool.false_ne_true]
  · rw [List.length_append]
    omega
  · rw [hsame.2.1]
    exact h.noted
  · rw [hunconsumed, happended, List.append_assoc]
  · rw [hsame.2.2]
    exact hahead

/-- What is behind a call of `nextRecord`. -/
inductive Called (decode : Bytes → String) (opts : McapReaderOptions) (file : Bytes)
    (all : List TypedMcapRecord) (appended : Bytes) (returned : List TypedMcapRecord) :
    Option TypedMcapRecord → McapStreamReader → Prop
  | waits {s' : McapStreamReader} (hne : appended ≠ file)
      (h : Reading decode opts file all appended returned s') :
      Called decode opts file all appended returned none s'
  | record {record : TypedMcapRecord} {s' : McapStreamReader}
      (h : Reading decode opts file all appended (returned ++ [record]) s') :
      Called decode opts file all appended returned (some record) s'
  | last {record : TypedMcapRecord} {s' : McapStreamReader}
      (h : Finished file all appended (returned ++ [record]) s') :
      Called decode opts file all appended returned (some record) s'

/-- **A call of `nextRecord`.** -/
theorem Reading.nextRecord (h : Reading decode opts file all appended returned s)
    (hconsistent : Consistent all) (hwithin' : appended <+: file)
    (hsize : file.length ≤ MAX_SAFE_INTEGER) :
    ∃ record s', s.nextRecord decode opts = .ok (record, s') ∧
      Called decode opts file all appended returned record s' := by
  obtain ⟨consumed, bytes, records, hfile, happended, hall, hahead⟩ := h.ahead
  have hview : s.view = s.view.take s.offset ++ s.unconsumed := (List.take_append_drop _ _).symm
  have hfront : (s.view.take s.offset).length = s.offset := by
    rw [List.length_take, h.fits.length_view]
    exact Nat.min_eq_left h.fits.offset
  have hlength := hwithin'.length_le
  have hpart : s.unconsumed <+: bytes := by
    rw [hfile, happended] at hwithin'
    exact (List.prefix_append_right_inj consumed).mp hwithin'
  have hwithin := h.within
  have hmax : (s.view.take s.offset ++ s.unconsumed).length ≤ MAX_SAFE_INTEGER := by
    rw [← hview, h.fits.length_view]
    omega
  have hbytes : bytes.length ≤ MAX_SAFE_INTEGER := by
    rw [hfile, List.length_append] at hsize
    omega
  have hrank : s.generator.rank ≤ 2 := by
    cases s.generator <;> simp [Generator.rank]
  have hfuel : s.unconsumed.length + s.generator.rank < s.view.length + 4 := by
    unfold McapStreamReader.unconsumed
    rw [List.length_drop]
    omega
  obtain ⟨t, hnext, hadvance⟩ := next_ahead hahead hpart hmax hbytes hfuel
  rw [← hview, hfront] at hnext
  have hrun : s.nextRecord decode opts =
      (next decode opts s.view (s.view.length + 4) s.generator s.offset).bind _ :=
    if_neg (by rw [h.live]; exact Bool.false_ne_true)
  rw [hrun, hnext]
  -- the bytes behind those that are consumed now
  have hdrop : ∀ more part', s.unconsumed = more ++ part' →
      s.view.drop ((s.view.take s.offset).length + more.length) = part' := by
    intro more part' hmore
    rw [hfront, ← List.drop_drop]
    show s.unconsumed.drop more.length = part'
    rw [hmore, List.drop_left]
  have hoffset : ∀ more part', s.unconsumed = more ++ part' →
      (s.view.take s.offset).length + more.length ≤ s.byteLength := by
    intro more part' hmore
    have hlength := congrArg List.length hmore
    unfold McapStreamReader.unconsumed at hlength
    rw [List.length_drop, h.fits.length_view, List.length_append] at hlength
    have := h.fits.offset
    omega
  cases hadvance with
  | waits hmore hrest hne hahead' =>
    rename_i more part' bytes' generator
    refine ⟨none, _, rfl, .waits ?_ ⟨h.live, ⟨h.fits.view, hoffset _ _ hmore⟩, h.within, h.noted,
      consumed ++ more, bytes', records, ?_, ?_, hall, hahead'⟩⟩
    · rw [hfile, happended, hmore, hrest, ← List.append_assoc, ← List.append_assoc]
      exact fun heq => hne (List.append_cancel_left heq)
    · rw [hfile, hrest, List.append_assoc]
    · rw [happended, hmore, List.append_assoc]
      exact congrArg (fun l => consumed ++ (more ++ l)) (hdrop _ _ hmore).symm
  | record hmore hrest hrecords hahead' =>
    rename_i more part' bytes' generator record records'
    rw [hall, hrecords] at hconsistent
    obtain ⟨channelsById, hnote, hnoted⟩ := noteChannel_eq_ok hconsistent h.noted
    refine ⟨some record, { s with
      offset := (s.view.take s.offset).length + more.length, generator, channelsById }, ?_,
      .record ⟨h.live, ⟨h.fits.view, hoffset _ _ hmore⟩, h.within, hnoted,
      consumed ++ more, bytes', records', ?_, ?_, ?_, hahead'⟩⟩
    · show (noteChannel s.channelsById (some record)).bind _ = _
      rw [hnote]
      rfl
    · rw [hfile, hrest, List.append_assoc]
    · rw [happended, hmore, List.append_assoc]
      exact congrArg (fun l => consumed ++ (more ++ l)) (hdrop _ _ hmore).symm
    · rw [hall, hrecords, List.append_assoc]
      rfl
  | last hpart' hrecords =>
    rename_i footer
    refine ⟨some (.footer footer), _, rfl, .last ⟨rfl, ?_, ?_, ?_⟩⟩
    · rw [happended, hpart', hfile]
    · rw [hall, hrecords]
    · exact hdrop s.unconsumed [] (List.append_nil _).symm

theorem Ahead.ne_nil (h : Ahead decode opts generator bytes records) : records ≠ [] ∧ bytes ≠ [] := by
  induction h with
  | magic h ih => exact ⟨ih.1, List.append_ne_nil_of_left_ne_nil (by decide) _⟩
  | plain p hwhole hplain h ih => exact ⟨List.cons_ne_nil _ _, List.append_ne_nil_of_right_ne_nil _ ih.2⟩
  | header p record hwhole hrecord h ih =>
    exact ⟨List.cons_ne_nil _ _, List.append_ne_nil_of_right_ne_nil _ ih.2⟩
  | chunk p chunk hwhole hrecord h ih =>
    exact ⟨List.append_ne_nil_of_right_ne_nil _ ih.1, List.append_ne_nil_of_right_ne_nil _ ih.2⟩
  | unpacks hbuffer h ih => exact ih
  | inner hparse hallowed h ih => exact ⟨List.cons_ne_nil _ _, ih.2⟩
  | close hparse hempty h ih => exact ih
  | footer p footer hwhole hrecord h ih => exact ⟨ih.1, List.append_ne_nil_of_right_ne_nil _ ih.2⟩
  | last => exact ⟨List.cons_ne_nil _ _, by decide⟩

/-- The bytes that are appended along some calls. -/
def appendedOf : List Op → Bytes
  | [] => []
  | .append data :: ops => data ++ appendedOf ops
  | .nextRecord :: ops => appendedOf ops

/-- A reader in a file, or at the end of it. -/
def Reads (decode : Bytes → String) (opts : McapReaderOptions) (file : Bytes)
    (all : List TypedMcapRecord) (appended : Bytes) (returned : List TypedMcapRecord)
    (s : McapStreamReader) : Prop :=
  Reading decode opts file all appended returned s ∨ Finished file all appended returned s

theorem run_append_cons {s : McapStreamReader} {data : Bytes} (ops : List Op)
    (h : s.append data = .ok s') : run decode opts (.append data :: ops) s = run decode opts ops s' := by
  show (s.append data).bind _ = _
  rw [h]
  rfl

theorem run_next_cons {s : McapStreamReader} {record : Option TypedMcapRecord} (ops : List Op)
    (h : s.nextRecord decode opts = .ok (record, s')) :
    run decode opts (.nextRecord :: ops) s =
      (run decode opts ops s').map fun x => (record.toList ++ x.1, x.2) := by
  show (s.nextRecord decode opts).bind _ = _
  rw [h]
  show (run decode opts ops s').bind _ = _
  rcases run decode opts ops s' with e | x <;> rfl

variable (decode opts) in
/-- An append of no bytes to a reader that is done. -/
structure Refused (file : Bytes) (all : List TypedMcapRecord) (appended : Bytes)
    (returned : List TypedMcapRecord) (ops : List Op) (s : McapStreamReader) : Prop where
  refused : ∃ before after more s', ops = before ++ .append [] :: after ∧
    appended ++ appendedOf before = file ∧ run decode opts before s = .ok (more, s') ∧
    returned ++ more = all ∧ s'.doneReading = true
  error : run decode opts ops s = .error .alreadyDone

/-- **Any calls**, up to an append behind the last record. -/
theorem run_reads (hconsistent : Consistent all) (hsize : file.length ≤ MAX_SAFE_INTEGER)
    {ops : List Op} (h : Reads decode opts file all appended returned s)
    (hpart : appended ++ appendedOf ops <+: file) :
    Refused decode opts file all appended returned ops s ∨
      ∃ more s', run decode opts ops s = .ok (more, s') ∧
        Reads decode opts file all (appended ++ appendedOf ops) (returned ++ more) s' := by
  induction ops generalizing appended returned s with
  | nil => exact .inr ⟨[], s, rfl, by rwa [appendedOf, List.append_nil, List.append_nil]⟩
  | cons op ops ih =>
    cases op with
    | append data =>
      rw [appendedOf, ← List.append_assoc] at hpart
      rcases h with h | h
      · obtain ⟨s', happend, h'⟩ := h.append data
        rcases ih (.inl h') hpart with
          ⟨⟨before, after, more, s'', rfl, hfile, hbefore, hall, hdone⟩, herror⟩ |
          ⟨more, s'', hrun, h''⟩
        · rw [List.append_assoc] at hfile
          exact .inl ⟨⟨.append data :: before, after, more, s'', rfl, hfile,
            (run_append_cons before happend).trans hbefore, hall, hdone⟩,
            (run_append_cons _ happend).trans herror⟩
        · exact .inr ⟨more, s'', (run_append_cons ops happend).trans hrun,
            by rwa [appendedOf, ← List.append_assoc]⟩
      · -- behind the end of the file there is nothing to append
        have hlength := hpart.length_le
        rw [h.appended] at hlength
        simp only [List.length_append] at hlength
        obtain rfl : data = [] := List.eq_nil_of_length_eq_zero (by omega)
        refine .inl ⟨⟨[], ops, [], s, rfl, (List.append_nil _).trans h.appended, rfl,
          (List.append_nil _).trans h.returned, h.done⟩, ?_⟩
        show (s.append []).bind _ = _
        unfold McapStreamReader.append
        rw [h.done]
        rfl
    | nextRecord =>
      -- the record, and what the other calls come to
      have hcons : ∀ record s', s.nextRecord decode opts = .ok (record, s') →
          Reads decode opts file all appended (returned ++ record.toList) s' →
          Refused decode opts file all appended returned (.nextRecord :: ops) s ∨
            ∃ more s'', run decode opts (.nextRecord :: ops) s = .ok (more, s'') ∧
              Reads decode opts file all (appended ++ appendedOf ops) (returned ++ more) s'' := by
        intro record s' hnext h'
        rcases ih h' hpart with
          ⟨⟨before, after, more, s'', rfl, hfile, hbefore, hall, hdone⟩, herror⟩ |
          ⟨more, s'', hrun, h''⟩
        · refine .inl ⟨⟨.nextRecord :: before, after, record.toList ++ more, s'', rfl, hfile, ?_, ?_,
            hdone⟩, ?_⟩
          · rw [run_next_cons before hnext, hbefore]
            rfl
          · rw [← List.append_assoc]
            exact hall
          · rw [run_next_cons _ hnext, herror]
            rfl
        · refine .inr ⟨record.toList ++ more, s'', ?_, by rwa [← List.append_assoc]⟩
          rw [run_next_cons ops hnext, hrun]
          rfl
      rcases h with h | h
      · obtain ⟨record, s', hnext, hcalled⟩ := h.nextRecord hconsistent
          ((List.prefix_append _ _).trans hpart) hsize
        cases hcalled with
        | waits hne h' => exact hcons none s' hnext (.inl (by rwa [Option.toList_none, List.append_nil]))
        | record h' => exact hcons _ s' hnext (.inl h')
        | last h' => exact hcons _ s' hnext (.inr h')
      · have hnext : s.nextRecord decode opts = .ok (none, s) := by
          unfold McapStreamReader.nextRecord
          rw [h.done, if_pos rfl]
        exact hcons none s hnext (.inr (by rwa [Option.toList_none, List.append_nil]))

/-- **The records of a file that is there** are returned one by one. -/
theorem run_drain (hconsistent : Consistent all) (hsize : file.length ≤ MAX_SAFE_INTEGER) {k : Nat}
    (h : Reads decode opts file all file returned s) (hk : all.length ≤ returned.length + k) :
    ∃ more s', run decode opts (List.replicate k .nextRecord) s = .ok (more, s') ∧
      Finished file all file (returned ++ more) s' := by
  induction k generalizing returned s with
  | zero =>
    rcases h with h | h
    · obtain ⟨consumed, bytes, records, -, -, hall, hahead⟩ := h.ahead
      have hpos := List.length_pos_iff.mpr hahead.ne_nil.1
      rw [hall, List.length_append] at hk
      omega
    · exact ⟨[], s, rfl, by rwa [List.append_nil]⟩
  | succ k ih =>
    have hcons : ∀ record s', s.nextRecord decode opts = .ok (record, s') →
        Reads decode opts file all file (returned ++ record.toList) s' →
        all.length ≤ (returned ++ record.toList).length + k →
        ∃ more s'', run decode opts (List.replicate (k + 1) .nextRecord) s = .ok (more, s'') ∧
          Finished file all file (returned ++ more) s'' := by
      intro record s' hnext h' hk'
      obtain ⟨more, s'', hmore, h''⟩ := ih h' hk'
      refine ⟨record.toList ++ more, s'', ?_, by rwa [← List.append_assoc]⟩
      rw [List.replicate_succ, run_next_cons _ hnext, hmore]
      rfl
    have hlonger : ∀ record, all.length ≤ (returned ++ [record]).length + k := by
      intro record
      rw [List.length_append, List.length_singleton]
      omega
    rcases h with h | h
    · obtain ⟨record, s', hnext, hcalled⟩ := h.nextRecord hconsistent (List.prefix_refl file) hsize
      cases hcalled with
      | waits hne h' => exact absurd rfl hne
      | record h' => exact hcons _ s' hnext (.inl h') (hlonger _)
      | last h' => exact hcons _ s' hnext (.inr h') (hlonger _)
    · have hnext : s.nextRecord decode opts = .ok (none, s) := by
        unfold McapStreamReader.nextRecord
        rw [h.done, if_pos rfl]
      refine hcons none s hnext (.inr (by rwa [Option.toList_none, List.append_nil])) ?_
      rw [Option.toList_none, List.append_nil, h.returned]
      omega

/-! ## Valid files -/

/-- **No record is left in a chunk.** -/
theorem parseRecord_end {view : Bytes} (validateCrcs : Bool) :
    parseRecord decode validateCrcs ⟨view, view.length⟩ = .ok (none, ⟨view, view.length⟩) := by
  unfold parseRecord
  show (if (Reader.mk view view.length).bytesRemaining < 1 + 8 then _ else _ : Read _) _ = _
  rw [if_pos (by unfold bytesRemaining; dsimp only; omega)]
  rfl

theorem ahead_inner {chunk : Chunk} {inner : List Piece} {header : Option Header}
    (hunpacks : Unpacks decode opts chunk inner) (h : Ahead decode opts (.records header) bytes records)
    (front back : List Piece) (heq : inner = front ++ back) :
    Ahead decode opts (.inChunk header ⟨bytesOf inner, (bytesOf front).length⟩) bytes
      (back.map Piece.record ++ records) := by
  induction back generalizing front with
  | nil =>
    rw [List.append_nil] at heq
    subst heq
    refine .close (parseRecord_end _) ?_ h
    exact Nat.sub_self _
  | cons p back ih =>
    have hsize := hunpacks.size
    have hbytes : bytesOf inner = bytesOf front ++ (p.bytes ++ bytesOf back) := by
      rw [heq, bytesOf_append, bytesOf_cons]
    have hmem : p ∈ inner := heq ▸ List.mem_append_right _ List.mem_cons_self
    have hparse := parseRecord_whole (hunpacks.whole p hmem) (bytesOf front) (bytesOf back)
      (by rw [hbytes] at hsize; exact hsize)
    have hnext := ih (front ++ [p]) (by rw [heq, List.append_assoc]; rfl)
    rw [bytesOf_append, List.length_append] at hnext
    have hone : (bytesOf [p]).length = p.bytes.length := by
      rw [bytesOf_cons, bytesOf_nil, List.append_nil]
    rw [hone] at hnext
    refine .inner ?_ (hunpacks.allowed p hmem) hnext
    rw [hbytes]
    exact hparse

/-- **The records of a file are ahead**, in front of others: there is no second header. -/
theorem ahead_entries {entries : List Entry} (hvalid : ∀ e ∈ entries, e.Valid decode opts)
    {header : Option Header}
    (hheader : header.toList.length +
      ((entries.map fun e => e.piece.record).filterMap TypedMcapRecord.header?).length ≤ 1)
    (h : ∀ header, Ahead decode opts (.records header) bytes records) :
    Ahead decode opts (.records header) (bytesOf (entries.map Entry.piece) ++ bytes)
      (entries.flatMap (Entry.shown opts) ++ records) := by
  induction entries generalizing header with
  | nil => exact h header
  | cons e entries ih =>
    have he := hvalid e List.mem_cons_self
    have hrest := fun header hheader =>
      @ih (fun e' hmem => hvalid e' (List.mem_cons_of_mem _ hmem)) header hheader
    rw [List.map_cons, bytesOf_cons, List.append_assoc, List.flatMap_cons, List.append_assoc]
    rw [List.map_cons] at hheader
    -- a record that is neither a header nor a chunk, which is shown as it is
    have hplain : ∀ hone : e.piece.record.header? = none, Entry.shown opts e = [e.piece.record] →
        (∀ offset, onRecord opts header e.piece.record offset =
          .ok (.yields (some e.piece.record) (.records header) offset)) →
        Ahead decode opts (.records header) (e.piece.bytes ++ (bytesOf (entries.map Entry.piece) ++
          bytes)) (Entry.shown opts e ++ (entries.flatMap (Entry.shown opts) ++ records)) := by
      intro hone hshown hon
      rw [List.filterMap_cons_none hone] at hheader
      rw [hshown]
      exact .plain e.piece he.whole hon (hrest header hheader)
    cases hrecord : e.piece.record with
    | header record =>
      rw [hrecord, List.filterMap_cons_some (show TypedMcapRecord.header? _ = some record from rfl),
        List.length_cons] at hheader
      obtain rfl : header = none := by
        cases header with
        | none => rfl
        | some _ => rw [Option.toList_some, List.length_singleton] at hheader; omega
      have hshown : Entry.shown opts e = [.header record] := by unfold Entry.shown; rw [hrecord]
      rw [hshown]
      refine .header e.piece record he.whole hrecord (hrest (some record) ?_)
      rw [Option.toList_none, List.length_nil] at hheader
      rw [Option.toList_some, List.length_singleton]
      omega
    | chunk chunk =>
      rw [hrecord, List.filterMap_cons_none (show TypedMcapRecord.header? _ = none from rfl)] at hheader
      have hunpacks := he.unpacks chunk hrecord
      have hshown : Entry.shown opts e =
          (if opts.includeChunks then [.chunk chunk] else []) ++ e.inner.map Piece.record := by
        unfold Entry.shown; rw [hrecord]
      rw [hshown, List.append_assoc]
      exact .chunk e.piece chunk he.whole hrecord (.unpacks (hunpacks.buffer header)
        (ahead_inner hunpacks (hrest header hheader) [] e.inner rfl))
    | footer footer => exact absurd hrecord (he.notFooter footer)
    | _ =>
      refine hplain ?_ ?_ ?_
      · rw [hrecord]; rfl
      · unfold Entry.shown; rw [hrecord]
      · rw [hrecord]; exact fun _ => rfl

variable {file : Bytes}

/-- **A valid file is ahead** of a new reader. -/
theorem ValidFile.ahead (f : ValidFile decode opts file) :
    Ahead decode opts (new opts).generator file f.records := by
  have hend : ∀ header, Ahead decode opts (.records header) (f.last.bytes ++ MAGIC)
      [.footer f.footer] := fun header => .footer f.last f.footer f.last_whole f.last_eq .last
  have hentries : Ahead decode opts (.records none)
      (bytesOf (f.entries.map Entry.piece) ++ (f.last.bytes ++ MAGIC)) f.records :=
    ahead_entries f.valid (by simpa using f.header) hend
  have hfile := f.file_eq
  generalize f.records = all at hentries ⊢
  unfold McapStreamReader.new
  cases hmagic : opts.noMagicPrefix with
  | true =>
    rw [hmagic, if_pos rfl, List.nil_append] at hfile
    rw [if_pos rfl, hfile]
    exact hentries
  | false =>
    rw [hmagic, if_neg Bool.false_ne_true] at hfile
    rw [if_neg Bool.false_ne_true, hfile]
    exact .magic hentries

theorem ValidFile.reading (f : ValidFile decode opts file) :
    Reading decode opts file f.records [] [] (new opts) where
  live := rfl
  fits := ⟨Nat.zero_le _, Nat.le_refl _⟩
  within := Nat.le_refl _
  noted := noted_empty
  ahead := ⟨[], file, f.records, rfl, rfl, rfl, f.ahead⟩

theorem run_append {ops ops' : List Op} {s : McapStreamReader} {returned : List TypedMcapRecord}
    (h : run decode opts ops s = .ok (returned, s')) :
    run decode opts (ops ++ ops') s =
      (run decode opts ops' s').map fun x => (returned ++ x.1, x.2) := by
  induction ops generalizing s returned with
  | nil =>
    cases h
    show run decode opts ops' _ = (run decode opts ops' _).map _
    rcases run decode opts ops' _ with e | x <;> rfl
  | cons op ops ih =>
    cases op with
    | append data =>
      obtain ⟨s₁, happend, h⟩ := bind_eq_ok h
      show (s.append data).bind _ = _
      rw [happend]
      exact ih h
    | nextRecord =>
      obtain ⟨⟨record, s₁⟩, hnext, h⟩ := bind_eq_ok h
      obtain ⟨⟨more, s₂⟩, hmore, h⟩ := bind_eq_ok h
      cases h
      show (s.nextRecord decode opts).bind _ = _
      rw [hnext]
      show (run decode opts (ops ++ ops') s₁).bind _ = _
      rw [ih hmore]
      rcases run decode opts ops' s' with e | x
      · rfl
      · exact congrArg Except.ok (by
          show (record.toList ++ (more ++ x.1), x.2) = _
          rw [← List.append_assoc])

theorem Reads.done_iff {all returned : List TypedMcapRecord} {s : McapStreamReader}
    {appended : Bytes} (h : Reads decode opts file all appended returned s) :
    returned <+: all ∧ (s.doneReading = true ↔ returned = all) ∧
      (s.doneReading = true ↔ appended = file ∧ s.unconsumed = []) := by
  rcases h with h | h
  · obtain ⟨consumed, bytes, records, hfile, happended, hall, hahead⟩ := h.ahead
    obtain ⟨hrecords, hbytes⟩ := hahead.ne_nil
    refine ⟨hall ▸ List.prefix_append _ _, ?_, ?_⟩
    · rw [h.live, hall]
      refine iff_of_false Bool.false_ne_true fun heq => hrecords ?_
      exact List.append_right_eq_self.mp heq.symm
    · rw [h.live]
      refine iff_of_false Bool.false_ne_true fun ⟨heq, hnil⟩ => hbytes ?_
      rw [hfile, happended, hnil] at heq
      exact (List.append_cancel_left heq).symm
  · rw [h.returned, h.appended]
    exact ⟨List.prefix_refl _, iff_of_true h.done rfl, iff_of_true h.done ⟨rfl, h.unconsumed⟩⟩

/-- **The stream reader does not depend on how a file is cut.**  Whatever calls there are that append
a part of a valid file, no error is thrown, but for an append of no bytes behind the last record.
The first records of the file have been returned, and the reader is done if all of them have, which
is when the magic bytes at the end have been consumed.  When the file is there, further calls return
the records that are left. -/
theorem fragments_read (f : ValidFile decode opts file) (ops : List Op)
    (hpart : appendedOf ops <+: file) :
    (run decode opts ops (new opts) = .error .alreadyDone ∧
      ∃ before after s, ops = before ++ .append [] :: after ∧ appendedOf before = file ∧
        run decode opts before (new opts) = .ok (f.records, s) ∧ s.doneReading = true) ∨
    ∃ returned s, run decode opts ops (new opts) = .ok (returned, s) ∧ returned <+: f.records ∧
      (s.doneReading = true ↔ returned = f.records) ∧
      (s.doneReading = true ↔ appendedOf ops = file ∧ s.unconsumed = []) ∧
      (appendedOf ops = file → ∀ k, f.records.length ≤ k →
        ∃ s', run decode opts (ops ++ List.replicate k .nextRecord) (new opts) =
          .ok (f.records, s') ∧ s'.doneReading = true) := by
  rcases run_reads f.consistent f.size (.inl f.reading) hpart with
    ⟨⟨before, after, more, s, hops, hfile, hbefore, hall, hdone⟩, herror⟩ |
    ⟨returned, s, hrun, hreads⟩
  · rw [List.nil_append] at hall
    subst hall
    exact .inl ⟨herror, before, after, s, hops, hfile, hbefore, hdone⟩
  · rw [List.nil_append, List.nil_append] at hreads
    obtain ⟨hreturned, hdone, hmagic⟩ := hreads.done_iff
    refine .inr ⟨returned, s, hrun, hreturned, hdone, hmagic, ?_⟩
    intro heq k hk
    rw [heq] at hreads
    obtain ⟨more, s', hmore, hfinished⟩ := run_drain f.consistent f.size hreads
      (hk.trans (Nat.le_add_left _ _))
    refine ⟨s', ?_, hfinished.done⟩
    rw [run_append hrun, hmore]
    exact congrArg (fun l => Except.ok (l, s')) hfinished.returned

end

/-! ## A small file -/

/-- Chunks are shown, and there is no decompression. -/
def plainOptions : McapReaderOptions where
  includeChunks := true
  decompressHandlers _ := none
  validateCrcs := true
  noMagicPrefix := false

/-- A channel and a message of it. -/
def smallInner : List Piece :=
  [⟨0x04, List.replicate 16 0, .channel ⟨0, 0, "", "", ∅⟩⟩,
    ⟨0x05, List.replicate 22 0 ++ [7], .message ⟨0, 0, 0, 0, [7]⟩⟩]

/-- A chunk of them. -/
def smallEntry : Entry where
  piece :=
    { opcode := 0x06
      body := List.replicate 32 0 ++ (le 8 57 ++ bytesOf smallInner)
      record := .chunk ⟨0, 0, 0, 0, "", bytesOf smallInner⟩ }
  inner := smallInner

def smallFile : Bytes :=
  MAGIC ++ (smallEntry.piece.bytes ++ (frame 0x02 (List.replicate 20 0) ++ MAGIC))

theorem smallEntry_valid : smallEntry.Valid (fun _ => "") plainOptions where
  whole := rfl
  notFooter _ h := by cases h
  unpacks chunk h := by
    cases h
    refine ⟨fun _ => rfl, fun p hp => ?_, by decide, by decide⟩
    rcases List.mem_cons.mp hp with rfl | hp
    · exact rfl
    · cases List.mem_singleton.mp hp
      exact rfl

theorem smallFile_consistent :
    Consistent ([smallEntry].flatMap (Entry.shown plainOptions) ++ [.footer ⟨0, 0, 0⟩]) := by
  have hlist : [smallEntry].flatMap (Entry.shown plainOptions) ++ [.footer ⟨0, 0, 0⟩] =
      [.chunk ⟨0, 0, 0, 0, "", bytesOf smallInner⟩, .channel ⟨0, 0, "", "", ∅⟩,
        .message ⟨0, 0, 0, 0, [7]⟩, .footer ⟨0, 0, 0⟩] := rfl
  rw [hlist]
  constructor
  · intro front channel back h existing hmem
    simp only [List.cons_eq_append_iff] at h
    aesop
  · intro front message back h
    simp only [List.cons_eq_append_iff] at h
    aesop

def smallFile_valid : ValidFile (fun _ => "") plainOptions smallFile where
  entries := [smallEntry]
  last := ⟨0x02, List.replicate 20 0, .footer ⟨0, 0, 0⟩⟩
  footer := ⟨0, 0, 0⟩
  file_eq := rfl
  valid e he := List.mem_singleton.mp he ▸ smallEntry_valid
  header := by decide
  last_whole := rfl
  last_eq := rfl
  consistent := smallFile_consistent
  size := by
    rw [show smallFile.length = 151 from rfl]
    decide

set_option maxRecDepth 4000 in
/-- The file in two pieces, with a call between them and four behind them. -/
theorem fragments_read_small :
    ∃ s, run (fun _ => "") plainOptions
        ([.append (smallFile.take 100), .nextRecord, .append (smallFile.drop 100)] ++
          List.replicate 4 .nextRecord) (new plainOptions) = .ok (smallFile_valid.records, s) ∧
      s.doneReading = true := by
  rcases fragments_read smallFile_valid
      [.append (smallFile.take 100), .nextRecord, .append (smallFile.drop 100)]
      (List.prefix_refl smallFile) with ⟨herror, -⟩ | ⟨_, _, -, -, -, -, hmore⟩
  · obtain ⟨x, hx⟩ : ∃ x, run (fun _ => "") plainOptions
        [.append (smallFile.take 100), .nextRecord, .append (smallFile.drop 100)]
        (new plainOptions) = .ok x := ⟨_, rfl⟩
    rw [hx] at herror
    cases herror
  · exact hmore rfl 4 (Nat.le_refl 4)

set_option maxRecDepth 4000 in
/-- **No bytes are refused behind the end**: the file in two pieces, of which the second is empty and
comes when all records have been returned. -/
theorem empty_append_refused :
    Nonempty (ValidFile (fun _ => "") plainOptions smallFile) ∧
    appendedOf [.append smallFile, .nextRecord, .nextRecord, .nextRecord, .nextRecord, .append []] =
      smallFile ∧
    run (fun _ => "") plainOptions
        [.append smallFile, .nextRecord, .nextRecord, .nextRecord, .nextRecord, .append []]
        (new plainOptions) = .error .alreadyDone :=
  ⟨⟨smallFile_valid⟩, rfl, rfl⟩

end Ts
end Mcap
