import Mcap.TsStreamReader

/-! # Records in a longer view

What is read of a segment of bytes is read of a view that has other bytes in front and behind, if
nothing outside the segment is looked at.  `Shifts` says that of two readings, the second of which
is at the same place of the longer view, and has a rule for each way in which a record is put
together; `shifts_parseFields` is what comes of them.

A record that is whole in itself is then parsed in any view (`parseRecord_whole`), and a part of it is
not (`parseRecord_part`).
-/
namespace Mcap
namespace Ts

open Reader

/-- **Reading in a longer view**, that has other bytes in front of the segment and behind it. -/
def Shifts {α : Type} (front seg back : Bytes) (o : Nat) (p q : Read α) : Prop :=
  ∀ a r, p ⟨seg, o⟩ = .ok (a, r) → r.view = seg ∧
    q ⟨front ++ (seg ++ back), front.length + o⟩ =
      .ok (a, ⟨front ++ (seg ++ back), front.length + r.offset⟩)

theorem read_bind {α β : Type} (p : Read α) (f : α → Read β) (r : Reader) :
    (p >>= f) r = (p r).bind fun x => f x.1 x.2 := rfl

section
variable {α β : Type} {front seg back : Bytes} {o : Nat} {p q : Read α}

theorem Shifts.pure (a : α) : Shifts front seg back o (Pure.pure a) (Pure.pure a) := by
  rintro _ _ h
  cases h
  exact ⟨rfl, rfl⟩

theorem Shifts.bind {f g : α → Read β} (h : Shifts front seg back o p q)
    (hf : ∀ a o', p ⟨seg, o⟩ = .ok (a, ⟨seg, o'⟩) → Shifts front seg back o' (f a) (g a)) :
    Shifts front seg back o (p >>= f) (q >>= g) := by
  intro b r hrun
  obtain ⟨a, ⟨view, o'⟩, hp, hnext⟩ := run_bind_eq_ok hrun
  obtain ⟨hview, hq⟩ := h a _ hp
  cases hview
  obtain ⟨hview, hg⟩ := hf a o' hp b r hnext
  refine ⟨hview, ?_⟩
  rw [read_bind, hq]
  exact hg

theorem Shifts.bind_pure (h : Shifts front seg back o p q) (f : α → β) :
    Shifts front seg back o (p >>= fun a => Pure.pure (f a)) (q >>= fun a => Pure.pure (f a)) :=
  h.bind fun a _ _ => .pure (f a)

theorem Shifts.get {f g : Reader → Read α} (h : Shifts front seg back o (f ⟨seg, o⟩)
    (g ⟨front ++ (seg ++ back), front.length + o⟩)) :
    Shifts front seg back o (MonadState.get >>= f) (MonadState.get >>= g) :=
  fun a r hrun => h a r hrun

theorem Shifts.guard {c c' : Prop} [Decidable c] [Decidable c'] {e e' : TsError}
    (h : ¬ c → ¬ c' ∧ Shifts front seg back o p q) :
    Shifts front seg back o (if c then throw e else p) (if c' then throw e' else q) := by
  by_cases hc : c
  · rw [if_pos hc]
    intro a r hrun
    cases hrun
  · rw [if_neg hc, if_neg (h hc).1]
    exact (h hc).2

theorem Shifts.guards {c c' d d' : Prop} [Decidable c] [Decidable c'] [Decidable d] [Decidable d']
    {e₁ e₁' e₂ e₂' : TsError} (h : ¬ c → ¬ d → ¬ c' ∧ ¬ d' ∧ Shifts front seg back o p q) :
    Shifts front seg back o (if c then throw e₁ else if d then throw e₂ else p)
      (if c' then throw e₁' else if d' then throw e₂' else q) := by
  by_cases hd : d
  · rw [if_pos hd]
    intro a r hrun
    split at hrun <;> cases hrun
  · refine .guard fun hc => ?_
    obtain ⟨hc', hd', hpq⟩ := h hc hd
    rw [if_neg hd, if_neg hd']
    exact ⟨hc', hpq⟩

theorem Shifts.ite {c : Prop} [Decidable c] {p' q' : Read α} (h : Shifts front seg back o p q)
    (h' : Shifts front seg back o p' q') :
    Shifts front seg back o (if c then p else p') (if c then q else q') := by
  by_cases hc : c
  · rw [if_pos hc, if_pos hc]
    exact h
  · rw [if_neg hc, if_neg hc]
    exact h'

theorem shifts_setOffset {x y : Nat} (h : y = front.length + x) :
    Shifts front seg back o (setOffset x) (setOffset y) := by
  rintro _ _ hrun
  cases hrun
  refine ⟨rfl, ?_⟩
  rw [h]
  rfl

theorem take_drop_segment {n : Nat} (h : o + n ≤ seg.length) :
    ((front ++ (seg ++ back)).drop (front.length + o)).take n = (seg.drop o).take n := by
  rw [← List.drop_drop, List.drop_left, List.drop_append_of_le_length (by omega),
    List.take_append_of_le_length (by rw [List.length_drop]; omega)]

theorem shifts_uint (size : Nat) : Shifts front seg back o (uint size) (uint size) := by
  intro n r hrun
  unfold uint at hrun ⊢
  dsimp only at hrun ⊢
  split at hrun
  · rename_i hle
    cases hrun
    refine ⟨rfl, ?_⟩
    rw [if_pos (by simp only [List.length_append]; omega), take_drop_segment hle, Nat.add_assoc]
  · cases hrun

theorem shifts_uint8 : Shifts front seg back o uint8 uint8 := shifts_uint 1
theorem shifts_uint16 : Shifts front seg back o uint16 uint16 := shifts_uint 2
theorem shifts_uint32 : Shifts front seg back o uint32 uint32 := shifts_uint 4
theorem shifts_uint64 : Shifts front seg back o uint64 uint64 := shifts_uint 8

theorem shifts_u8Array {n : Int} (hnonneg : 0 ≤ o + n) (h : o + n ≤ seg.length)
    (hoffset : o ≤ seg.length) : Shifts front seg back o (u8Array n) (u8Array n) := by
  intro a r hrun
  unfold u8Array at hrun ⊢
  cases hrun
  refine ⟨rfl, ?_⟩
  dsimp only
  rw [take_drop_segment (by omega),
    show (((front.length + o : Nat) : Int) + n).toNat = front.length + ((o : Int) + n).toNat by
      omega]

theorem uint_eq_ok {size n o' : Nat} (h : uint size ⟨seg, o⟩ = .ok (n, ⟨seg, o'⟩)) :
    o' = o + size ∧ o' ≤ seg.length := by
  unfold uint at h
  dsimp only at h
  split at h
  · cases h
    exact ⟨rfl, ‹_›⟩
  · cases h

theorem shifts_string (decode : Bytes → String) :
    Shifts front seg back o (string decode) (string decode) := by
  refine shifts_uint32.bind fun length o' hlength => .ite (.pure _) (.get ?_)
  obtain ⟨-, hle⟩ := uint_eq_ok hlength
  refine .guard fun hremaining => ⟨?_, ?_⟩
  · unfold bytesRemaining at hremaining ⊢
    simp only [List.length_append] at hremaining ⊢
    omega
  · unfold bytesRemaining at hremaining
    dsimp only at hremaining
    exact (shifts_u8Array (by omega) (by omega) hle).bind_pure _

theorem shifts_whileBefore {σ : Type} {step : σ → Read σ} {e e' : Nat} (he : e' = front.length + e)
    (hstep : ∀ s o, Shifts front seg back o (step s) (step s)) (fuel : Nat) (s : σ) (o : Nat) :
    Shifts front seg back o (whileBefore e step fuel s) (whileBefore e' step fuel s) := by
  subst he
  induction fuel generalizing s o with
  | zero => exact .pure s
  | succ fuel ih =>
    intro a r hrun
    unfold whileBefore at hrun ⊢
    dsimp only at hrun ⊢
    split at hrun
    · rename_i hlt
      obtain ⟨hview, hmore⟩ := ((hstep s o).bind fun s' o' _ => ih s' o') a r hrun
      refine ⟨hview, ?_⟩
      rw [if_pos (by omega)]
      exact hmore
    · rename_i hge
      cases hrun
      refine ⟨rfl, ?_⟩
      rw [if_neg (by omega)]

theorem Shifts.rethrow (h : Shifts front seg back o p q) (wrap : TsError → TsError) :
    Shifts front seg back o (Reader.rethrow wrap p) (Reader.rethrow wrap q) := by
  intro a r hrun
  unfold Reader.rethrow at hrun ⊢
  cases hp : p ⟨seg, o⟩ with
  | error e =>
    rw [hp] at hrun
    cases hrun
  | ok x =>
    rw [hp] at hrun
    cases hrun
    obtain ⟨hview, hq⟩ := h a r hp
    refine ⟨hview, ?_⟩
    rw [hq]

section
variable {K V : Type} {readKey : Read K} {readValue : Read V}

theorem shifts_keyValuePairs (hkey : ∀ o, Shifts front seg back o readKey readKey)
    (hvalue : ∀ o, Shifts front seg back o readValue readValue) :
    Shifts front seg back o (keyValuePairs readKey readValue) (keyValuePairs readKey readValue) := by
  refine shifts_uint32.bind fun length o' _ => .get <| .guard fun hfits => ⟨?_, ?_⟩
  · simp only [List.length_append] at hfits ⊢
    omega
  · refine ((shifts_whileBefore (Nat.add_assoc _ _ _) (fun s o => (hkey o).bind fun key o _ =>
      (hvalue o).bind_pure _) _ _ _).rethrow _).bind fun result o' _ => .get ?_
    refine .guard fun hend => ⟨?_, .pure _⟩
    dsimp only at hend ⊢
    omega

variable [DecidableEq K]

theorem shifts_map (hkey : ∀ o, Shifts front seg back o readKey readKey)
    (hvalue : ∀ o, Shifts front seg back o readValue readValue) :
    Shifts front seg back o (Reader.map readKey readValue) (Reader.map readKey readValue) := by
  refine shifts_uint32.bind fun length o' _ => .get <| .guard fun hfits => ⟨?_, ?_⟩
  · simp only [List.length_append] at hfits ⊢
    omega
  · refine ((shifts_whileBefore (Nat.add_assoc _ _ _) (fun s o => (hkey o).bind fun key o _ =>
      (hvalue o).bind fun value o _ => .guard fun hnew => ⟨hnew, .pure _⟩) _ _ _).rethrow _).bind
        fun result o' _ => .get ?_
    refine .guard fun hend => ⟨?_, .pure _⟩
    dsimp only at hend ⊢
    omega

end

end

/-! ## Records -/

section
variable {decode : Bytes → String} {front seg back : Bytes} {o recordLength : Nat}

theorem shifts_end {start : Nat} (record : TypedMcapRecord) :
    Shifts front seg back o (setOffset (start + recordLength) >>= fun _ => pure record)
      (setOffset (front.length + start + recordLength) >>= fun _ => pure record) :=
  (shifts_setOffset (Nat.add_assoc _ _ _)).bind fun _ _ _ => .pure _

theorem shifts_parseHeader :
    Shifts front seg back o (parseHeader decode recordLength) (parseHeader decode recordLength) :=
  .get <| (shifts_string decode).bind fun _ _ _ => (shifts_string decode).bind fun _ _ _ =>
    shifts_end _

theorem shifts_parseFooter :
    Shifts front seg back o (parseFooter recordLength) (parseFooter recordLength) :=
  .get <| shifts_uint64.bind fun _ _ _ => shifts_uint64.bind fun _ _ _ =>
    shifts_uint32.bind fun _ _ _ => shifts_end _

theorem shifts_parseSchema (h : o + recordLength ≤ seg.length) :
    Shifts front seg back o (parseSchema decode recordLength) (parseSchema decode recordLength) :=
  .get <| shifts_uint16.bind fun _ _ _ => (shifts_string decode).bind fun _ _ _ =>
    (shifts_string decode).bind fun _ _ _ => shifts_uint32.bind fun dataLen o' hdataLen =>
    .get <| .guard fun hfits => by
      obtain ⟨-, hle⟩ := uint_eq_ok hdataLen
      dsimp only at hfits ⊢
      exact ⟨by omega, (shifts_u8Array (by omega) (by omega) hle).bind fun _ _ _ => shifts_end _⟩

theorem shifts_parseChannel :
    Shifts front seg back o (parseChannel decode recordLength) (parseChannel decode recordLength) :=
  .get <| shifts_uint16.bind fun _ _ _ => shifts_uint16.bind fun _ _ _ =>
    (shifts_string decode).bind fun _ _ _ => (shifts_string decode).bind fun _ _ _ =>
    (shifts_map (fun _ => shifts_string decode) fun _ => shifts_string decode).bind fun _ _ _ =>
    shifts_end _

theorem shifts_parseMessage (h : o + recordLength ≤ seg.length) :
    Shifts front seg back o (parseMessage recordLength) (parseMessage recordLength) := by
  refine shifts_uint16.bind fun _ o₁ h₁ => shifts_uint32.bind fun _ o₂ h₂ =>
    shifts_uint64.bind fun _ o₃ h₃ => shifts_uint64.bind fun _ o₄ h₄ => ?_
  obtain ⟨ho₁, -⟩ := uint_eq_ok h₁
  obtain ⟨ho₂, -⟩ := uint_eq_ok h₂
  obtain ⟨ho₃, -⟩ := uint_eq_ok h₃
  obtain ⟨ho₄, hle⟩ := uint_eq_ok h₄
  exact (shifts_u8Array (by omega) (by omega) hle).bind_pure _

theorem shifts_parseChunk (h : o + recordLength ≤ seg.length) :
    Shifts front seg back o (parseChunk decode recordLength) (parseChunk decode recordLength) :=
  .get <| shifts_uint64.bind fun _ _ _ => shifts_uint64.bind fun _ _ _ =>
    shifts_uint64.bind fun _ _ _ => shifts_uint32.bind fun _ _ _ =>
    (shifts_string decode).bind fun _ _ _ => shifts_uint64.bind fun _ _ hlength =>
    .get <| .guard fun hfits => by
      obtain ⟨-, hle⟩ := uint_eq_ok hlength
      dsimp only at hfits ⊢
      exact ⟨by omega, (shifts_u8Array (by omega) (by omega) hle).bind fun _ _ _ => shifts_end _⟩

theorem shifts_parseMessageIndex :
    Shifts front seg back o (parseMessageIndex recordLength) (parseMessageIndex recordLength) :=
  .get <| shifts_uint16.bind fun _ _ _ =>
    (shifts_keyValuePairs (fun _ => shifts_uint64) fun _ => shifts_uint64).bind fun _ _ _ =>
    shifts_end _

theorem shifts_parseChunkIndex :
    Shifts front seg back o (parseChunkIndex decode recordLength) (parseChunkIndex decode recordLength) :=
  .get <| shifts_uint64.bind fun _ _ _ => shifts_uint64.bind fun _ _ _ =>
    shifts_uint64.bind fun _ _ _ => shifts_uint64.bind fun _ _ _ =>
    (shifts_map (fun _ => shifts_uint16) fun _ => shifts_uint64).bind fun _ _ _ =>
    shifts_uint64.bind fun _ _ _ => (shifts_string decode).bind fun _ _ _ =>
    shifts_uint64.bind fun _ _ _ => shifts_uint64.bind fun _ _ _ => shifts_end _

theorem shifts_parseAttachmentIndex :
    Shifts front seg back o (parseAttachmentIndex decode recordLength)
      (parseAttachmentIndex decode recordLength) :=
  .get <| shifts_uint64.bind fun _ _ _ => shifts_uint64.bind fun _ _ _ =>
    shifts_uint64.bind fun _ _ _ => shifts_uint64.bind fun _ _ _ => shifts_uint64.bind fun _ _ _ =>
    (shifts_string decode).bind fun _ _ _ => (shifts_string decode).bind fun _ _ _ => shifts_end _

theorem shifts_parseStatistics :
    Shifts front seg back o (parseStatistics recordLength) (parseStatistics recordLength) :=
  .get <| shifts_uint64.bind fun _ _ _ => shifts_uint16.bind fun _ _ _ =>
    shifts_uint32.bind fun _ _ _ => shifts_uint32.bind fun _ _ _ => shifts_uint32.bind fun _ _ _ =>
    shifts_uint32.bind fun _ _ _ => shifts_uint64.bind fun _ _ _ => shifts_uint64.bind fun _ _ _ =>
    (shifts_map (fun _ => shifts_uint16) fun _ => shifts_uint64).bind fun _ _ _ => shifts_end _

theorem shifts_parseMetadata :
    Shifts front seg back o (parseMetadata decode recordLength) (parseMetadata decode recordLength) :=
  .get <| (shifts_string decode).bind fun _ _ _ =>
    (shifts_map (fun _ => shifts_string decode) fun _ => shifts_string decode).bind fun _ _ _ =>
    shifts_end _

theorem shifts_parseMetadataIndex :
    Shifts front seg back o (parseMetadataIndex decode recordLength)
      (parseMetadataIndex decode recordLength) :=
  .get <| shifts_uint64.bind fun _ _ _ => shifts_uint64.bind fun _ _ _ =>
    (shifts_string decode).bind fun _ _ _ => shifts_end _

theorem shifts_parseSummaryOffset :
    Shifts front seg back o (parseSummaryOffset recordLength) (parseSummaryOffset recordLength) :=
  .get <| shifts_uint8.bind fun _ _ _ => shifts_uint64.bind fun _ _ _ =>
    shifts_uint64.bind fun _ _ _ => shifts_end _

theorem shifts_parseDataEnd :
    Shifts front seg back o (parseDataEnd recordLength) (parseDataEnd recordLength) :=
  .get <| shifts_uint32.bind fun _ _ _ => shifts_end _

theorem shifts_parseUnknown (opcode : UInt8) (h : o + recordLength ≤ seg.length) :
    Shifts front seg back o (parseUnknown recordLength opcode) (parseUnknown recordLength opcode) :=
  (shifts_u8Array (by omega) (by omega) (by omega)).bind_pure _

theorem shifts_checkAttachment (validateCrcs : Bool) {start crcLength : Nat} (expectedCrc : Nat)
    (h : start + crcLength ≤ seg.length) :
    Shifts front seg back o (checkAttachment validateCrcs start crcLength expectedCrc)
      (checkAttachment validateCrcs (front.length + start) crcLength expectedCrc) := by
  refine .ite ?_ (.pure ())
  refine (shifts_setOffset rfl).bind fun _ o' hset => ?_
  cases hset
  refine (shifts_u8Array (by omega) (by omega) (by omega)).bind fun fullData _ _ => ?_
  exact (shifts_setOffset (by omega)).bind fun _ _ _ => .guard fun hmatch => ⟨hmatch, .pure ()⟩

theorem shifts_parseAttachment (validateCrcs : Bool) (h : o + recordLength ≤ seg.length)
    (hmax : front = [] ∨ (front ++ (seg ++ back)).length ≤ MAX_SAFE_INTEGER) :
    Shifts front seg back o (parseAttachment decode recordLength validateCrcs)
      (parseAttachment decode recordLength validateCrcs) := by
  refine .get <| shifts_uint64.bind fun _ _ _ => shifts_uint64.bind fun _ _ _ =>
    (shifts_string decode).bind fun _ _ _ => (shifts_string decode).bind fun _ _ _ =>
    shifts_uint64.bind fun dataLen o' hdataLen => .get <| .guards fun hlarge hfits => ?_
  obtain ⟨-, hle⟩ := uint_eq_ok hdataLen
  have hfront : front.length = 0 ∨ (front ++ (seg ++ back)).length ≤ MAX_SAFE_INTEGER :=
    hmax.imp_left List.length_eq_zero_iff.mpr
  simp only [List.length_append] at hlarge hfits hfront ⊢
  refine ⟨by omega, by omega, (shifts_u8Array (by omega) (by omega) hle).bind fun data o₁ hdata =>
    .get <| shifts_uint32.bind fun expectedCrc _ _ => ?_⟩
  cases hdata
  dsimp only at hfits ⊢
  have hlength : front.length + (↑o' + (dataLen : Int)).toNat - (front.length + o) =
      (↑o' + (dataLen : Int)).toNat - o := by omega
  rw [hlength]
  exact (shifts_checkAttachment validateCrcs expectedCrc (by omega)).bind fun _ _ _ => shifts_end _

/-- **The fields of a record that is in the segment.** -/
theorem shifts_parseFields (validateCrcs : Bool) (opcode : UInt8)
    (h : o + recordLength ≤ seg.length)
    (hmax : front = [] ∨ (front ++ (seg ++ back)).length ≤ MAX_SAFE_INTEGER) :
    Shifts front seg back o (parseFields decode recordLength validateCrcs opcode)
      (parseFields decode recordLength validateCrcs opcode) := by
  unfold parseFields
  refine .ite shifts_parseHeader ?_
  refine .ite shifts_parseFooter ?_
  refine .ite (shifts_parseSchema h) ?_
  refine .ite shifts_parseChannel ?_
  refine .ite (shifts_parseMessage h) ?_
  refine .ite (shifts_parseChunk h) ?_
  refine .ite shifts_parseMessageIndex ?_
  refine .ite shifts_parseChunkIndex ?_
  refine .ite (shifts_parseAttachment validateCrcs h hmax) ?_
  refine .ite shifts_parseAttachmentIndex ?_
  refine .ite shifts_parseStatistics ?_
  refine .ite shifts_parseMetadata ?_
  refine .ite shifts_parseMetadataIndex ?_
  refine .ite shifts_parseSummaryOffset ?_
  refine .ite shifts_parseDataEnd ?_
  exact shifts_parseUnknown opcode h

end

/-! ## Whole records, and parts of them -/

section
variable {decode : Bytes → String} {validateCrcs : Bool} {opcode : UInt8} {body : Bytes}
  {record : TypedMcapRecord}

/-- **A record that is whole in itself.** -/
def Whole (decode : Bytes → String) (validateCrcs : Bool) (opcode : UInt8) (body : Bytes)
    (record : TypedMcapRecord) : Prop :=
  (parseRecord decode validateCrcs ⟨frame opcode body, 0⟩).map Prod.fst = .ok (some record)

theorem uint_at (front mid rest : Bytes) {size : Nat} (hsize : mid.length = size) :
    uint size ⟨front ++ (mid ++ rest), front.length⟩ =
      .ok (ofLe mid, ⟨front ++ (mid ++ rest), front.length + size⟩) := by
  unfold uint
  dsimp only
  rw [if_pos (by simp only [List.length_append]; omega), List.drop_left, List.take_left' hsize]

/-- **A record at an offset**, behind its header. -/
theorem parseRecord_eq (decode : Bytes → String) (validateCrcs : Bool) (opcode : UInt8)
    (front rest : Bytes)
    (hbody : body.length < 256 ^ 8) :
    parseRecord decode validateCrcs ⟨front ++ (opcode :: le 8 body.length ++ rest), front.length⟩ =
      if MAX_SAFE_INTEGER < body.length then .error (.recordTooLarge body.length)
      else if rest.length < body.length then
        .ok (none, ⟨front ++ (opcode :: le 8 body.length ++ rest), front.length⟩)
      else (parseFields decode body.length validateCrcs opcode
        ⟨front ++ (opcode :: le 8 body.length ++ rest), front.length + 9⟩).map fun x =>
          (some x.1, ⟨x.2.view, front.length + 9 + body.length⟩) := by
  obtain ⟨view, hview⟩ : ∃ view, front ++ (opcode :: le 8 body.length ++ rest) = view := ⟨_, rfl⟩
  have hlength : view.length = front.length + 9 + rest.length := by
    rw [← hview]
    simp only [List.length_append, List.length_cons, length_le]
    omega
  have hopcode : uint8 ⟨view, front.length⟩ = .ok (opcode.toNat, ⟨view, front.length + 1⟩) := by
    have h : uint 1 _ = _ := uint_at front [opcode] (le 8 body.length ++ rest) rfl
    rw [show ofLe [opcode] = opcode.toNat by simp [ofLe]] at h
    rwa [← hview]
  have hbytes : uint64 ⟨view, front.length + 1⟩ = .ok (body.length, ⟨view, front.length + 9⟩) := by
    have h := uint_at (front ++ [opcode]) (le 8 body.length) rest (length_le 8 body.length)
    rw [ofLe_le_of_lt hbody, List.length_append, List.append_assoc] at h
    rwa [← hview]
  rw [hview]
  unfold parseRecord
  show (if (Reader.mk view front.length).bytesRemaining < 1 + 8 then _ else _ : Read _) _ = _
  rw [if_neg (by unfold bytesRemaining; dsimp only; omega)]
  show ((uint8 ⟨view, front.length⟩).bind fun x => _) = _
  rw [hopcode]
  show ((uint64 ⟨view, front.length + 1⟩).bind fun x => _) = _
  rw [hbytes]
  show (if MAX_SAFE_INTEGER < body.length then _ else _ : Read _) _ = _
  split
  · rfl
  · show (if (Reader.mk view (front.length + 9)).bytesRemaining < body.length then _ else _ : Read _)
      _ = _
    have hremaining : (Reader.mk view (front.length + 9)).bytesRemaining = rest.length := by
      unfold bytesRemaining
      dsimp only
      omega
    rw [hremaining]
    split
    · rfl
    · rw [UInt8.ofNat_toNat]
      rfl

theorem frame_append (rest : Bytes) :
    frame opcode body ++ rest = opcode :: le 8 body.length ++ (body ++ rest) := by
  unfold frame
  simp

theorem Whole.fields (h : Whole decode validateCrcs opcode body record)
    (hbody : body.length < 256 ^ 8) : body.length ≤ MAX_SAFE_INTEGER ∧
      ∃ r, parseFields decode body.length validateCrcs opcode ⟨frame opcode body, 9⟩ =
        .ok (record, r) := by
  have heq := parseRecord_eq decode validateCrcs opcode [] body hbody
  have hframe : ([] : Bytes) ++ (opcode :: le 8 body.length ++ body) = frame opcode body := rfl
  rw [hframe] at heq
  unfold Whole at h
  rw [show (⟨frame opcode body, 0⟩ : Reader) = ⟨frame opcode body, ([] : Bytes).length⟩ from rfl,
    heq] at h
  split at h
  · cases h
  · rename_i hlarge
    rw [if_neg (Nat.lt_irrefl _)] at h
    refine ⟨Nat.not_lt.mp hlarge, ?_⟩
    rcases hfields : parseFields decode body.length validateCrcs opcode
      ⟨frame opcode body, ([] : Bytes).length + 9⟩ with e | ⟨record', r⟩
    · rw [hfields] at h
      cases h
    · rw [hfields] at h
      cases h
      exact ⟨r, rfl⟩

/-- **A whole record is parsed in any view.** -/
theorem parseRecord_whole (h : Whole decode validateCrcs opcode body record) (front rest : Bytes)
    (hmax : (front ++ (frame opcode body ++ rest)).length ≤ MAX_SAFE_INTEGER) :
    parseRecord decode validateCrcs ⟨front ++ (frame opcode body ++ rest), front.length⟩ =
      .ok (some record, ⟨front ++ (frame opcode body ++ rest),
        front.length + (frame opcode body).length⟩) := by
  have hlength : (frame opcode body).length = 9 + body.length := length_frame opcode body
  have hbody : body.length < 256 ^ 8 := by
    simp only [List.length_append] at hmax
    exact Nat.lt_of_le_of_lt (show body.length ≤ MAX_SAFE_INTEGER by omega) (by decide)
  obtain ⟨hsafe, r, hfields⟩ := h.fields hbody
  have hshifts : Shifts front (frame opcode body) rest 9
      (parseFields decode body.length validateCrcs opcode)
      (parseFields decode body.length validateCrcs opcode) :=
    shifts_parseFields validateCrcs opcode (by rw [hlength]) (.inr hmax)
  obtain ⟨-, hshift⟩ := hshifts record r hfields
  have heq := parseRecord_eq decode validateCrcs opcode front (body ++ rest) hbody
  rw [← frame_append] at heq
  rw [heq, if_neg (Nat.not_lt.mpr hsafe),
    if_neg (by rw [List.length_append]; omega), hshift, hlength, Nat.add_assoc]
  rfl

/-- **A part of a record is left in the view.** -/
theorem parseRecord_part (front part rest : Bytes) (hpart : part ++ rest = frame opcode body)
    (hrest : rest ≠ []) (hmax : body.length ≤ MAX_SAFE_INTEGER) :
    parseRecord decode validateCrcs ⟨front ++ part, front.length⟩ =
      .ok (none, ⟨front ++ part, front.length⟩) := by
  have hbody : body.length < 256 ^ 8 := Nat.lt_of_le_of_lt hmax (by decide)
  have hpos := List.length_pos_iff.mpr hrest
  have hlength := congrArg List.length hpart
  rw [List.length_append, length_frame] at hlength
  by_cases hshort : part.length < 9
  · unfold parseRecord
    show (if (Reader.mk (front ++ part) front.length).bytesRemaining < 1 + 8 then _ else _ : Read _)
      _ = _
    rw [if_pos (by unfold bytesRemaining; simp only [List.length_append]; omega)]
    rfl
  · -- the header is there, and the length is that of the whole record
    have hheader : part = opcode :: le 8 body.length ++ part.drop 9 := by
      have htake := congrArg (List.take 9) hpart
      rw [List.take_append_of_le_length (by omega)] at htake
      conv_lhs => rw [← List.take_append_drop 9 part, htake]
      unfold frame
      rw [← List.cons_append, List.take_left' (by simp)]
    have heq := parseRecord_eq decode validateCrcs opcode front (part.drop 9) hbody
    rw [← hheader] at heq
    rw [heq, if_neg (Nat.not_lt.mpr hmax), if_pos (by rw [List.length_drop]; omega)]

end

end Ts
end Mcap
