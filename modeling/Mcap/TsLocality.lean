import Mcap.TsFields

/-! # Records of the TypeScript library, and what stands behind them

A field is read from the view, so that a record that ends in the middle of a field may be completed
with bytes of the records behind it.  Schemas, chunks and attachments compare what they read with the
length of the record (`Enclosed`); the others do not, and the offset is moved to the end of the record
in any case.

What comes of a record depends on the bytes behind it if and only if its body is cut off in the fields
of some record of one of the other kinds (`parseRecord_local_iff`).
-/
namespace Mcap
namespace Ts

open Reader

/-! ## Records that do not look at their length -/

/-- The fields of the records that do not compare them with the length of the record. -/
def fieldsOf (decode : Bytes → String) (opcode : UInt8) : Option (List (Bytes → Prop)) :=
  let string := Shape (text decode)
  let stringMap := Shape (entriesOfMap (text decode) (text decode))
  let number size := Shape (number size)
  let numberMap := Shape (entriesOfMap (Ts.number 2) (Ts.number 8))
  if opcode = Opcode.HEADER then some [string, string]
  else if opcode = Opcode.FOOTER then some [number 8, number 8, number 4]
  else if opcode = Opcode.SCHEMA then none
  else if opcode = Opcode.CHANNEL then some [number 2, number 2, string, string, stringMap]
  else if opcode = Opcode.MESSAGE then some [number 2, number 4, number 8, number 8]
  else if opcode = Opcode.CHUNK then none
  else if opcode = Opcode.MESSAGE_INDEX then
    some [number 2, Shape (entries (Ts.number 8) (Ts.number 8))]
  else if opcode = Opcode.CHUNK_INDEX then
    some [number 8, number 8, number 8, number 8, numberMap, number 8, string, number 8, number 8]
  else if opcode = Opcode.ATTACHMENT then none
  else if opcode = Opcode.ATTACHMENT_INDEX then
    some [number 8, number 8, number 8, number 8, number 8, string, string]
  else if opcode = Opcode.STATISTICS then
    some [number 8, number 2, number 4, number 4, number 4, number 4, number 8, number 8, numberMap]
  else if opcode = Opcode.METADATA then some [string, stringMap]
  else if opcode = Opcode.METADATA_INDEX then some [number 8, number 8, string]
  else if opcode = Opcode.SUMMARY_OFFSET then some [number 1, number 8, number 8]
  else if opcode = Opcode.DATA_END then some [number 4]
  else none

theorem number_ne_nil {size n : Nat} {enc : Bytes} (hsize : size ≠ 0) (h : number size n enc) :
    enc ≠ [] := by
  rintro rfl
  exact hsize h.1.symm

theorem text_ne_nil {decode : Bytes → String} {s : String} {enc : Bytes} (h : text decode s enc) :
    enc ≠ [] := by
  obtain ⟨bytes, -, rfl, -⟩ := h
  intro hnil
  have hlength := congrArg List.length hnil
  rw [List.length_append, length_le, List.length_nil] at hlength
  omega

/-- A reading has the fields, if they are given. -/
def HasFields {α : Type} (p : Read α) : Option (List (Bytes → Prop)) → Prop
  | none => True
  | some fields => Admits p (Fields fields)

theorem HasFields.ite {α : Type} {c : Prop} [Decidable c] {p q : Read α}
    {x y : Option (List (Bytes → Prop))} (hp : HasFields p x) (hq : HasFields q y) :
    HasFields (if c then p else q) (if c then x else y) := by
  by_cases hc : c
  · rw [if_pos hc, if_pos hc]
    exact hp
  · rw [if_neg hc, if_neg hc]
    exact hq

section
variable (decode : Bytes → String) (recordLength : Nat) (validateCrcs : Bool)

theorem admits_end (offset : Nat) (record : TypedMcapRecord) :
    Admits (setOffset offset >>= fun _ => pure record) (Fields []) := admits_nil fun _ => ⟨_, rfl⟩

theorem reads_stringMap : Accepts (Reader.map (string decode) (string decode))
    (entriesOfMap (text decode) (text decode)) :=
  reads_map (reads_string decode) (reads_string decode) fun _ _ => text_ne_nil

theorem reads_numberMap :
    Accepts (Reader.map uint16 uint64) (entriesOfMap (number 2) (number 8)) :=
  reads_map (reads_uint 2) (reads_uint 8) fun _ _ => number_ne_nil (by decide)

theorem hasFields_parseFields (opcode : UInt8) :
    HasFields (parseFields decode recordLength validateCrcs opcode) (fieldsOf decode opcode) := by
  have string := reads_string decode
  have uint := reads_uint
  unfold parseFields fieldsOf
  refine .ite (.get fun _ => .field string fun _ => .field string fun _ => admits_end _ _) ?_
  refine .ite (.get fun _ => .field (uint 8) fun _ => .field (uint 8) fun _ =>
    .field (uint 4) fun _ => admits_end _ _) ?_
  refine .ite trivial ?_
  refine .ite (.get fun _ => .field (uint 2) fun _ => .field (uint 2) fun _ =>
    .field string fun _ => .field string fun _ => .field (reads_stringMap decode) fun _ =>
    admits_end _ _) ?_
  refine .ite (.field (uint 2) fun _ => .field (uint 4) fun _ => .field (uint 8) fun _ =>
    .field (uint 8) fun _ => admits_nil fun _ => ⟨_, rfl⟩) ?_
  refine .ite trivial ?_
  refine .ite (.get fun _ => .field (uint 2) fun _ => .field (reads_keyValuePairs (uint 8) (uint 8)
    fun _ _ => number_ne_nil (by decide)) fun _ => admits_end _ _) ?_
  refine .ite (.get fun _ => .field (uint 8) fun _ => .field (uint 8) fun _ =>
    .field (uint 8) fun _ => .field (uint 8) fun _ => .field reads_numberMap fun _ =>
    .field (uint 8) fun _ => .field string fun _ => .field (uint 8) fun _ =>
    .field (uint 8) fun _ => admits_end _ _) ?_
  refine .ite trivial ?_
  refine .ite (.get fun _ => .field (uint 8) fun _ => .field (uint 8) fun _ =>
    .field (uint 8) fun _ => .field (uint 8) fun _ => .field (uint 8) fun _ =>
    .field string fun _ => .field string fun _ => admits_end _ _) ?_
  refine .ite (.get fun _ => .field (uint 8) fun _ => .field (uint 2) fun _ =>
    .field (uint 4) fun _ => .field (uint 4) fun _ => .field (uint 4) fun _ =>
    .field (uint 4) fun _ => .field (uint 8) fun _ => .field (uint 8) fun _ =>
    .field reads_numberMap fun _ => admits_end _ _) ?_
  refine .ite (.get fun _ => .field string fun _ => .field (reads_stringMap decode) fun _ =>
    admits_end _ _) ?_
  refine .ite (.get fun _ => .field (uint 8) fun _ => .field (uint 8) fun _ =>
    .field string fun _ => admits_end _ _) ?_
  refine .ite (.get fun _ => .field (uint 1) fun _ => .field (uint 8) fun _ =>
    .field (uint 8) fun _ => admits_end _ _) ?_
  refine .ite (.get fun _ => .field (uint 4) fun _ => admits_end _ _) ?_
  exact trivial

end

/-! ## Records that do -/

/-- **A reading that stays in front of a limit**: it begins there, or has no result, and what stands
behind the limit does not matter to there being one. -/
structure Enclosed {α : Type} (limit : Nat) (p : Read α) : Prop where
  within : ∀ front rest x, p ⟨front ++ rest, front.length⟩ = .ok x → front.length ≤ limit
  contained : ∀ front body back, front.length + body.length = limit →
    (∃ x, p ⟨front ++ (body ++ back), front.length⟩ = .ok x) →
    ∃ x, p ⟨front ++ body, front.length⟩ = .ok x

section
variable {α β : Type} {p : Read α} {S : α → Bytes → Prop} {limit : Nat}

theorem Enclosed.field {f : α → Read β} (hp : Accepts p S) (hf : ∀ a, Enclosed limit (f a)) :
    Enclosed limit (p >>= f) where
  within front rest x hrun := by
    obtain ⟨a, r₁, ha, hrun⟩ := run_bind_eq_ok hrun
    obtain ⟨enc, back, rfl, -, rfl⟩ := hp.spelled _ _ _ _ ha
    rw [← List.append_assoc, ← List.length_append] at hrun
    have hmore := (hf a).within _ _ _ hrun
    rw [List.length_append] at hmore
    omega
  contained := by
    rintro front body back hlimit ⟨⟨b, r⟩, hrun⟩
    obtain ⟨a, r₁, ha, hrun⟩ := run_bind_eq_ok hrun
    obtain ⟨enc, back', heq, henc, rfl⟩ := hp.spelled _ _ _ _ ha
    rw [heq, ← List.append_assoc, ← List.length_append] at hrun
    -- the field ends in front of the limit, since the rest of the reading begins there
    have hle := (hf a).within _ _ _ hrun
    rw [List.length_append] at hle
    obtain ⟨body', rfl⟩ : enc <+: body :=
      List.prefix_of_prefix_length_le ⟨back', heq.symm⟩ ⟨back, rfl⟩ (by omega)
    rw [List.append_assoc] at heq
    obtain rfl := List.append_cancel_left heq
    rw [List.length_append, ← Nat.add_assoc, ← List.length_append] at hlimit
    obtain ⟨x, hx⟩ := (hf a).contained _ body' back hlimit ⟨_, hrun⟩
    refine ⟨x, ?_⟩
    rw [read_bind, hp.recovers a enc henc]
    rw [List.append_assoc, List.length_append] at hx
    exact hx

theorem Enclosed.guard {c : Reader → Prop} [DecidablePred c] {e : Reader → TsError}
    {q : Reader → Read β} (hc : ∀ r r', r.offset = r'.offset → c r → c r')
    (hlimit : ∀ r, ¬c r → r.offset ≤ limit) (hq : ∀ r, ∃ x, q r r = .ok x) :
    Enclosed limit (MonadState.get >>= fun r => if c r then throw (e r) else q r) where
  within front rest x hrun := by
    change (if c _ then throw _ else q _ : Read β) _ = _ at hrun
    split at hrun
    · cases hrun
    · rename_i hfits
      exact hlimit _ hfits
  contained := by
    rintro front body back - ⟨x, hrun⟩
    change (if c _ then throw _ else q _ : Read β) _ = _ at hrun
    show ∃ x, (if c _ then throw _ else q _ : Read β) _ = _
    split at hrun
    · cases hrun
    · rename_i hfits
      rw [if_neg fun h => hfits (hc _ _ (by rfl) h)]
      exact hq _

end

/-- What stands behind a body does not matter to there being a result. -/
def Contained {α : Type} (front body : Bytes) (p : Read α) : Prop :=
  ∀ back, (∃ x, p ⟨front ++ (body ++ back), front.length⟩ = .ok x) →
    ∃ x, p ⟨front ++ body, front.length⟩ = .ok x

section
variable {decode : Bytes → String} {front body : Bytes}

theorem Enclosed.start {β : Type} {f : Reader → Read β}
    (hf : ∀ r r', r.offset = r'.offset → f r = f r')
    (h : Enclosed (front.length + body.length) (f ⟨front ++ body, front.length⟩)) :
    Contained front body (MonadState.get >>= f) := by
  rintro back ⟨x, hrun⟩
  refine h.contained front body back rfl ⟨x, ?_⟩
  rw [hf ⟨front ++ body, front.length⟩ ⟨front ++ (body ++ back), front.length⟩ rfl]
  exact hrun

theorem contained_parseSchema : Contained front body (parseSchema decode body.length) :=
  Enclosed.start (fun r r' h => by dsimp only; rw [h]) <|
    .field (reads_uint 2) fun _ => .field (reads_string decode) fun _ =>
    .field (reads_string decode) fun _ => .field (reads_uint 4) fun _ =>
    .guard (fun r r' hr hc => by rwa [← hr]) (fun r hc => by dsimp only at hc; omega)
      fun r => ⟨_, rfl⟩

theorem contained_parseChunk : Contained front body (parseChunk decode body.length) :=
  Enclosed.start (fun r r' h => by dsimp only; rw [h]) <|
    .field (reads_uint 8) fun _ => .field (reads_uint 8) fun _ => .field (reads_uint 8) fun _ =>
    .field (reads_uint 4) fun _ => .field (reads_string decode) fun _ =>
    .field (reads_uint 8) fun _ =>
    .guard (fun r r' hr hc => by rwa [← hr]) (fun r hc => by dsimp only at hc; omega)
      fun r => ⟨_, rfl⟩

theorem checkAttachment_of_take {validateCrcs : Bool} {startOffset crcLength expectedCrc : Nat}
    {r r' : Reader} (h : (r.view.drop startOffset).take crcLength =
      (r'.view.drop startOffset).take crcLength)
    (hrun : ∃ x, checkAttachment validateCrcs startOffset crcLength expectedCrc r = .ok x) :
    ∃ x, checkAttachment validateCrcs startOffset crcLength expectedCrc r' = .ok x := by
  unfold checkAttachment at hrun ⊢
  by_cases hcheck : validateCrcs = true ∧ expectedCrc ≠ 0
  · rw [if_pos hcheck] at hrun ⊢
    obtain ⟨x, hrun⟩ := hrun
    have hcrc : ∀ r : Reader, (do
        setOffset startOffset
        let fullData ← u8Array crcLength
        let actualCrc := (crc32 fullData).toNat
        setOffset (startOffset + crcLength + 4)
        if actualCrc ≠ expectedCrc then throw (.attachmentCrcMismatch expectedCrc actualCrc)
        else pure () : Read Unit) r =
        (if (crc32 ((r.view.drop startOffset).take crcLength)).toNat ≠ expectedCrc then
          throw (.attachmentCrcMismatch expectedCrc
            (crc32 ((r.view.drop startOffset).take crcLength)).toNat)
        else pure () : Read Unit) ⟨r.view, startOffset + crcLength + 4⟩ := fun r => rfl
    rw [hcrc] at hrun
    rw [hcrc, ← h]
    split at hrun
    · cases hrun
    · rename_i heq
      rw [if_neg heq]
      exact ⟨_, rfl⟩
  · rw [if_neg hcheck]
    exact ⟨_, rfl⟩

/-- **The data of an attachment end four bytes in front of the end of the record**, so that its checksum
is in the record. -/
theorem enclosed_attachmentData {validateCrcs : Bool} {start recordLength limit : Nat}
    (hlimit : start + recordLength = limit)
    (logTime createTime dataLen : Nat) (name mediaType : String) : Enclosed limit (do
      let offset := (← get).offset
      if MAX_SAFE_INTEGER < offset + dataLen then throw (.attachmentTooLarge dataLen)
      else if start + recordLength < offset + dataLen + 4 then
        throw (.attachmentDataExceeds dataLen)
      else do
        let data ← u8Array dataLen
        let crcLength := (← get).offset - start
        let expectedCrc ← uint32
        checkAttachment validateCrcs start crcLength expectedCrc
        setOffset (start + recordLength)
        pure (TypedMcapRecord.attachment { logTime, createTime, name, mediaType, data })) where
  within front rest x hrun := by
    change (if MAX_SAFE_INTEGER < front.length + dataLen then _ else
      if start + recordLength < front.length + dataLen + 4 then _ else _ : Read _) _ = _ at hrun
    split at hrun
    · cases hrun
    · split at hrun
      · cases hrun
      · omega
  contained := by
    rintro front body back hbody ⟨⟨x, r⟩, hrun⟩
    change (if MAX_SAFE_INTEGER < front.length + dataLen then _ else
      if start + recordLength < front.length + dataLen + 4 then _ else _ : Read _) _ = _ at hrun
    show ∃ x, (if MAX_SAFE_INTEGER < front.length + dataLen then _ else
      if start + recordLength < front.length + dataLen + 4 then _ else _ : Read _) _ = _
    split at hrun
    · cases hrun
    · rename_i hlarge
      rw [if_neg hlarge]
      split at hrun
      · cases hrun
      · rename_i hfits
        rw [if_neg hfits]
        -- the bytes of the body are the same
        have hsame : ∀ {i n : Nat}, i + n ≤ limit →
            ((front ++ (body ++ back)).drop i).take n = ((front ++ body).drop i).take n := by
          intro i n hle
          have hlength : (front ++ body).length = limit := by rw [List.length_append, hbody]
          rw [← List.append_assoc, List.drop_append_of_le_length (by omega),
            List.take_append_of_le_length (by rw [List.length_drop]; omega)]
        obtain ⟨data, r₁, hdata, hrun⟩ := run_bind_eq_ok hrun
        cases hdata
        obtain ⟨_, _, hget, hrun⟩ := run_bind_eq_ok hrun
        cases hget
        obtain ⟨expectedCrc, r₂, hcrc, hrun⟩ := run_bind_eq_ok hrun
        obtain ⟨⟨⟩, r₃, hcheck, -⟩ := run_bind_eq_ok hrun
        have hoffset : ((front.length : Int) + dataLen).toNat = front.length + dataLen := by omega
        dsimp only at hcrc hcheck
        rw [hoffset] at hcrc hcheck
        unfold uint32 uint at hcrc
        dsimp only at hcrc
        split at hcrc
        · rw [hsame (by omega)] at hcrc
          cases hcrc
          obtain ⟨⟨⟨⟩, r₄⟩, hcheck'⟩ : ∃ x, checkAttachment validateCrcs start
              (front.length + dataLen - start)
              (ofLe (((front ++ body).drop (front.length + dataLen)).take 4))
              ⟨front ++ body, front.length + dataLen + 4⟩ = .ok x :=
            checkAttachment_of_take (hsame (by omega)) ⟨_, hcheck⟩
          refine read_bind_ok rfl (read_bind_ok rfl ?_)
          dsimp only
          rw [hoffset]
          refine read_bind_ok ?_ (read_bind_ok hcheck' ⟨_, rfl⟩)
          unfold uint32 uint
          dsimp only
          rw [if_pos (by rw [List.length_append]; omega)]
        · cases hcrc

end

section
variable {decode : Bytes → String} {front body : Bytes} {validateCrcs : Bool}

theorem contained_parseAttachment :
    Contained front body (parseAttachment decode body.length validateCrcs) :=
  Enclosed.start (fun r r' h => by dsimp only; rw [h]) <|
    .field (reads_uint 8) fun _ => .field (reads_uint 8) fun _ =>
    .field (reads_string decode) fun _ => .field (reads_string decode) fun _ =>
    .field (reads_uint 8) fun _ => enclosed_attachmentData rfl _ _ _ _ _

theorem contained_ite {α : Type} {c : Prop} [Decidable c] {p q : Read α}
    {x y : Option (List (Bytes → Prop))} (hp : x = none → Contained front body p)
    (hq : y = none → Contained front body q) :
    (if c then x else y) = none → Contained front body (if c then p else q) := by
  by_cases hc : c
  · rw [if_pos hc, if_pos hc]
    exact hp
  · rw [if_neg hc, if_neg hc]
    exact hq

/-- **The other records are enclosed in their bodies.** -/
theorem contained_parseFields {opcode : UInt8} (h : fieldsOf decode opcode = none) :
    Contained front body (parseFields decode body.length validateCrcs opcode) := by
  revert h
  unfold parseFields fieldsOf
  refine contained_ite nofun ?_
  refine contained_ite nofun ?_
  refine contained_ite (fun _ => contained_parseSchema) ?_
  refine contained_ite nofun ?_
  refine contained_ite nofun ?_
  refine contained_ite (fun _ => contained_parseChunk) ?_
  refine contained_ite nofun ?_
  refine contained_ite nofun ?_
  refine contained_ite (fun _ => contained_parseAttachment) ?_
  refine contained_ite nofun ?_
  refine contained_ite nofun ?_
  refine contained_ite nofun ?_
  refine contained_ite nofun ?_
  refine contained_ite nofun ?_
  refine contained_ite nofun ?_
  exact fun _ _ _ => ⟨_, rfl⟩

end

/-! ## What a record depends on -/

section
variable (decode : Bytes → String) (validateCrcs : Bool) (opcode : UInt8) (body : Bytes)

/-- What comes of parsing a record, which stands between other bytes: nothing if an error is thrown,
else the record that is returned, if one is, and the offset behind it. -/
def outcome (front rest : Bytes) : Option (Option TypedMcapRecord × Nat) :=
  match parseRecord decode validateCrcs ⟨front ++ (frame opcode body ++ rest), front.length⟩ with
  | .ok (record, r) => some (record, r.offset)
  | .error _ => none

/-- **A record is local**: what comes of parsing it does not depend on the bytes behind it, and exactly
its bytes are consumed. -/
def LocalRecord (front : Bytes) : Prop :=
  ∀ s t, outcome decode validateCrcs opcode body front s =
      outcome decode validateCrcs opcode body front t ∧
    ∀ x, outcome decode validateCrcs opcode body front s = some x →
      x.1.isSome ∧ x.2 = front.length + (frame opcode body).length

/-- **A body is cut off** in the fields of a record that does not compare them with its length: it goes
on to the bytes of all fields. -/
def CutOff : Prop :=
  ∃ fields, fieldsOf decode opcode = some fields ∧ ∃ more, more ≠ [] ∧ Fields fields (body ++ more)

/-- The fields, behind the header. -/
def fieldsOutcome (front rest : Bytes) : Except TsError (TypedMcapRecord × Reader) :=
  parseFields decode body.length validateCrcs opcode
    ⟨(front ++ opcode :: le 8 body.length) ++ (body ++ rest), (front ++ opcode :: le 8 body.length).length⟩

variable {decode validateCrcs opcode body} {front rest : Bytes}

theorem outcome_eq (hbody : body.length ≤ MAX_SAFE_INTEGER) :
    outcome decode validateCrcs opcode body front rest =
      match fieldsOutcome decode validateCrcs opcode body front rest with
      | .ok (record, _) => some (some record, front.length + (frame opcode body).length)
      | .error _ => none := by
  have heq := parseRecord_eq decode validateCrcs opcode front (body ++ rest)
    (Nat.lt_of_le_of_lt hbody (by decide))
  unfold outcome fieldsOutcome
  rw [frame_append, heq, if_neg (Nat.not_lt.mpr hbody),
    if_neg (by rw [List.length_append]; omega)]
  have hlength : (front ++ opcode :: le 8 body.length).length = front.length + 9 := by
    rw [List.length_append, List.length_cons, length_le]
  rw [hlength, List.append_assoc, length_frame, ← Nat.add_assoc]
  cases parseFields decode body.length validateCrcs opcode
    ⟨front ++ (opcode :: le 8 body.length ++ (body ++ rest)), front.length + 9⟩ <;> rfl

theorem outcome_large (hbody : body.length < 2 ^ 64) (hlarge : MAX_SAFE_INTEGER < body.length) :
    outcome decode validateCrcs opcode body front rest = none := by
  have heq := parseRecord_eq decode validateCrcs opcode front (body ++ rest) hbody
  unfold outcome
  rw [frame_append, heq, if_pos hlarge]

theorem fieldsOutcome_of_alone {record : TypedMcapRecord} {r : Reader}
    (h : fieldsOutcome decode validateCrcs opcode body front [] = .ok (record, r)) (rest : Bytes) :
    ∃ r', fieldsOutcome decode validateCrcs opcode body front rest = .ok (record, r') := by
  unfold fieldsOutcome at h ⊢
  rw [List.append_nil] at h
  generalize front ++ opcode :: le 8 body.length = header at h ⊢
  have hshifts : Shifts [] (header ++ body) rest header.length
      (parseFields decode body.length validateCrcs opcode)
      (parseFields decode body.length validateCrcs opcode) :=
    shifts_parseFields validateCrcs opcode (by rw [List.length_append]) (.inl rfl)
  obtain ⟨-, hshift⟩ := hshifts record r h
  rw [List.nil_append, List.append_assoc, List.length_nil, Nat.zero_add] at hshift
  exact ⟨_, hshift⟩

/-- **Records that are not cut off** are read of the body alone. -/
theorem fieldsOutcome_alone (hcut : ¬CutOff decode opcode body)
    (h : ∃ x, fieldsOutcome decode validateCrcs opcode body front rest = .ok x) :
    ∃ x, fieldsOutcome decode validateCrcs opcode body front [] = .ok x := by
  unfold fieldsOutcome at h ⊢
  rcases hfields : fieldsOf decode opcode with _ | fields
  · have halone := contained_parseFields hfields rest h
    rwa [List.append_nil]
  · have hadmits := hasFields_parseFields decode body.length validateCrcs opcode
    rw [hfields] at hadmits
    obtain ⟨enc, back, heq, henc⟩ := (hadmits.ok_iff _ _).mp h
    -- the fields end in the body, or the body is cut off in them
    rcases List.append_eq_append_iff.mp heq with ⟨more, rfl, -⟩ | ⟨body', rfl, -⟩
    · by_cases hnil : more = []
      · subst hnil
        refine (hadmits.ok_iff _ _).mpr ⟨body, [], rfl, ?_⟩
        rwa [List.append_nil] at henc
      · exact absurd ⟨fields, hfields, more, hnil, henc⟩ hcut
    · refine (hadmits.ok_iff _ _).mpr ⟨enc, body' ++ [], ?_, henc⟩
      rw [List.append_assoc]

theorem CutOff.not_local (h : CutOff decode opcode body) (front : Bytes)
    (hbody : body.length ≤ MAX_SAFE_INTEGER) :
    ¬LocalRecord decode validateCrcs opcode body front := by
  obtain ⟨fields, hfields, more, hmore, hcut⟩ := h
  intro hlocal
  have hadmits := hasFields_parseFields decode body.length validateCrcs opcode
  rw [hfields] at hadmits
  obtain ⟨x, hx⟩ : ∃ x, fieldsOutcome decode validateCrcs opcode body front more = .ok x :=
    (hadmits.ok_iff _ _).mpr ⟨body ++ more, [], (List.append_nil _).symm, hcut⟩
  have hsame := (hlocal more []).1
  rw [outcome_eq hbody, outcome_eq hbody, hx] at hsame
  cases halone : fieldsOutcome decode validateCrcs opcode body front [] with
  | error e =>
    rw [halone] at hsame
    cases hsame
  | ok y =>
    obtain ⟨enc, back, heq, henc⟩ := (hadmits.ok_iff _ _).mp ⟨y, halone⟩
    rw [List.append_nil] at heq
    subst heq
    rw [List.append_assoc] at hcut
    exact hmore (List.append_eq_nil_iff.mp (hadmits.prefixFree enc _ henc hcut)).2

theorem local_of_not_cutOff (h : ¬CutOff decode opcode body) (front : Bytes)
    (hbody : body.length ≤ MAX_SAFE_INTEGER) :
    LocalRecord decode validateCrcs opcode body front := by
  intro s t
  rw [outcome_eq hbody, outcome_eq hbody]
  cases halone : fieldsOutcome decode validateCrcs opcode body front [] with
  | error e =>
    have herror : ∀ rest, ∃ e', fieldsOutcome decode validateCrcs opcode body front rest = .error e' := by
      intro rest
      cases hrest : fieldsOutcome decode validateCrcs opcode body front rest with
      | error e' => exact ⟨e', rfl⟩
      | ok x =>
        obtain ⟨y, hy⟩ := fieldsOutcome_alone h ⟨x, hrest⟩
        rw [halone] at hy
        cases hy
    obtain ⟨e₁, h₁⟩ := herror s
    obtain ⟨e₂, h₂⟩ := herror t
    rw [h₁, h₂]
    exact ⟨rfl, nofun⟩
  | ok x =>
    obtain ⟨r₁, h₁⟩ := fieldsOutcome_of_alone halone s
    obtain ⟨r₂, h₂⟩ := fieldsOutcome_of_alone halone t
    rw [h₁, h₂]
    refine ⟨rfl, ?_⟩
    rintro _ ⟨⟩
    exact ⟨rfl, rfl⟩

/-- **A record is local if and only if its body is not cut off**, or is too large for a number. -/
theorem parseRecord_local_iff (front : Bytes) (hbody : body.length < 2 ^ 64) :
    LocalRecord decode validateCrcs opcode body front ↔
      MAX_SAFE_INTEGER < body.length ∨ ¬CutOff decode opcode body := by
  by_cases hlarge : MAX_SAFE_INTEGER < body.length
  · refine iff_of_true (fun s t => ⟨?_, fun x hx => ?_⟩) (.inl hlarge)
    · rw [outcome_large hbody hlarge, outcome_large hbody hlarge]
    · rw [outcome_large hbody hlarge] at hx
      cases hx
  · have hsmall : body.length ≤ MAX_SAFE_INTEGER := Nat.not_lt.mp hlarge
    rw [or_iff_right hlarge]
    exact ⟨fun hlocal hcut => hcut.not_local front hsmall hlocal,
      fun hcut => local_of_not_cutOff hcut front hsmall⟩

/-- The body of a DataEnd with its checksum. -/
theorem parseRecord_local_dataEnd :
    LocalRecord (fun _ => "") true Opcode.DATA_END [1, 2, 3, 4] [] :=
  (parseRecord_local_iff [] (by decide)).mpr (.inr (by
    rintro ⟨fields, hfields, more, hmore, hcut⟩
    cases hfields
    obtain ⟨e, e', heq, ⟨n, hsize, -⟩, rfl⟩ := hcut
    have hlength := congrArg List.length heq
    rw [List.append_nil, hsize] at hlength
    exact hmore (List.eq_nil_of_length_eq_zero (by simpa using hlength))))

/-- An empty DataEnd is read with a checksum from the record behind it. -/
theorem parseRecord_local_fails : ¬∀ (decode : Bytes → String) (validateCrcs : Bool)
    (opcode : UInt8) (body front : Bytes), body.length < 2 ^ 64 →
    LocalRecord decode validateCrcs opcode body front := by
  intro h
  have hlocal := (h (fun _ => "") true Opcode.DATA_END [] [] (by decide) [] [7, 0, 0, 0]).1
  exact absurd hlocal (by decide)

end

end Ts
end Mcap
