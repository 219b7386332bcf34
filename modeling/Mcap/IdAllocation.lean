import Mcap.Conflicts

/-! # New ids

`add_schema` and `add_channel` look for a free id from a counter on.  The ids below the
counter are all taken, so the search fails only when every id from 1 on is.  The counter
wraps after 65535; `fresh` says nothing of the id 0 it then offers to a schema.

An id is registered before the record is written.  `Refused` lists the reasons for which
that may still fail.
-/
namespace Mcap

/-- `w'` comes after `w` in a run of the writer. -/
inductive Follows {σ : Type} [Encoders σ] (w : Writer σ Stream) : Writer σ Stream → Prop
  | refl : Follows w w
  | call {w' w'' : Writer σ Stream} {r : Res McapError Reply} (op : Op) : Follows w w' →
      op.run w' = (r, w'') → r ≠ .panic → Follows w w''
  | finish {w' w'' : Writer σ Stream} {r : Res McapError Summary} (order : HashOrder) :
      Follows w w' → Writer.finish order w' = (r, w'') → r ≠ .panic → Follows w w''

namespace Writer
variable {σ : Type} [Encoders σ] {w : Writer σ Stream}

theorem good_of_follows {w' : Writer σ Stream} (hs : w.Sound) (h : Follows w w') : Good w w' := by
  induction h with
  | refl => exact ⟨hs, .refl w⟩
  | call op _ hrun _ ih =>
    have hg := preserves_run op _ ih
    rwa [hrun] at hg
  | finish order _ hrun _ ih =>
    have hg := steady_finish steady_good order _ ih
    rwa [hrun] at hg

/-- **Schema ids**: a new schema gets an id that is not taken and keeps it, a schema that
is known keeps the id it was first registered under, and nothing is written for it. -/
structure AllocatesSchemas (w : Writer σ Stream) : Prop where
  fresh : ∀ {name encoding data id w'}, w.canonicalSchemas.getByLeft ⟨name, encoding, data⟩ = none →
    addSchema name encoding data w = (.ok id, w') →
    w.allSchemaIds.contains id = false ∧ (w.nextSchemaId ≠ 0 → id ≠ 0) ∧
      w'.canonicalSchemas.getByLeft ⟨name, encoding, data⟩ = some id
  fails : ∀ {name encoding data e}, w.canonicalSchemas.getByLeft ⟨name, encoding, data⟩ = none →
    (addSchema name encoding data w).1 = .err e →
    (e = .tooManySchemas ∧ ∀ id, id ≠ 0 → w.allSchemaIds.contains id = true) ∨ w.Refused e
  panics : ∀ {name encoding data}, (addSchema name encoding data w).1 = .panic → ¬ w.Usable
  known : ∀ {name encoding data id w'},
    w.canonicalSchemas.getByLeft ⟨name, encoding, data⟩ = some id → Follows w w' →
    addSchema name encoding data w' = (.ok id, w')
  first : ∀ {content id w'}, w.canonicalSchemas.getByLeft content = none → Follows w w' →
    w'.canonicalSchemas.getByLeft content = some id →
    w.allSchemaIds[id]? = none ∧ w'.allSchemaIds[id]? = some id

/-- **Channel ids**: as for schemas, and a channel with a schema that is not registered is
refused. -/
structure AllocatesChannels (w : Writer σ Stream) : Prop where
  fresh : ∀ {schemaId topic encoding metadata id w'},
    w.canonicalChannels.getByLeft ⟨topic, schemaId, encoding, metadata⟩ = none →
    addChannel schemaId topic encoding metadata w = (.ok id, w') →
    w.allChannelIds.contains id = false ∧
      w'.canonicalChannels.getByLeft ⟨topic, schemaId, encoding, metadata⟩ = some id
  fails : ∀ {schemaId topic encoding metadata e},
    w.canonicalChannels.getByLeft ⟨topic, schemaId, encoding, metadata⟩ = none →
    (addChannel schemaId topic encoding metadata w).1 = .err e →
    (e = .tooManyChannels ∧ ∀ id, id ≠ 0 → w.allChannelIds.contains id = true) ∨
      (e = .unknownSchema topic schemaId ∧ schemaId ≠ 0 ∧
        w.allSchemaIds.contains schemaId = false) ∨ w.Refused e
  panics : ∀ {schemaId topic encoding metadata},
    (addChannel schemaId topic encoding metadata w).1 = .panic → ¬ w.Usable
  known : ∀ {schemaId topic encoding metadata id w'},
    w.canonicalChannels.getByLeft ⟨topic, schemaId, encoding, metadata⟩ = some id → Follows w w' →
    addChannel schemaId topic encoding metadata w' = (.ok id, w')
  first : ∀ {content id w'}, w.canonicalChannels.getByLeft content = none → Follows w w' →
    w'.canonicalChannels.getByLeft content = some id →
    w.allChannelIds[id]? = none ∧ w'.allChannelIds[id]? = some id

theorem candidate_ne_zero {ids : BTreeMap UInt16 UInt16} {next : UInt16} (h : next ≠ 0) :
    IdTable.candidate ids next ≠ 0 := by
  intro h0
  obtain ⟨hle, -⟩ := skipTaken_spec ids _ next rfl
  have hzero : (IdTable.candidate ids next).toNat = 0 := by
    rw [h0]
    rfl
  have hnext : next.toNat = 0 := by
    have : next.toNat ≤ (IdTable.candidate ids next).toNat := hle
    omega
  exact h (UInt16.toNat_inj.mp hnext)

/-- What can come of a definition that is written and an id that is returned. -/
structure Defines (w₁ : Writer σ Stream) (id : UInt16) (x : Res McapError UInt16 × Writer σ Stream) :
    Prop where
  ok : ∀ {id' w'}, x = (.ok id', w') → id' = id ∧ Extends w₁ w'
  err : ∀ {e}, x.1 = .err e → w₁.Refused e
  panic : x.1 = .panic → ¬ w₁.Usable

theorem defines {r : Record} (hr : r.written ≠ none) {w₁ : Writer σ Stream} (hs : w₁.Sound)
    (id : UInt16) : Defines w₁ id ((writeDefinition r >>= fun _ => pure id) w₁) := by
  by_cases hu : w₁.Usable
  · have hw := writeDefinition_writes hr hu hs.placed
    rcases h : writeDefinition r w₁ with ⟨a | e | _, w₂⟩ <;> rw [h] at hw
    · rw [Exec.bind_ok h]
      refine ⟨fun hx => ?_, fun hx => (by cases hx), fun hx => (by cases hx)⟩
      cases hx
      exact ⟨rfl, .of_registry (registry_of_core hw.core)⟩
    · rw [Exec.bind_err h]
      refine ⟨fun hx => (by cases hx), fun hx => ?_, fun hx => (by cases hx)⟩
      cases hx
      exact hw.raises
    · exact hw.raises.elim
  · rw [Exec.bind_panic (writeDefinition_panic hu)]
    exact ⟨fun hx => (by cases hx), fun hx => (by cases hx), fun _ => hu⟩

theorem allocatesSchemas (hs : w.Sound) : AllocatesSchemas w where
  fresh {name encoding data id w'} hc h := by
    revert h
    refine addSchema_cases hs (fun id' hc' => ?_) (fun _ _ h => by cases h)
      fun canonicalSchemas id' hid _ hnone hent hs' h => ?_
    · rw [hc] at hc'
      cases hc'
    · obtain ⟨rfl, hext⟩ := (defines (written_schema _ _) hs' _).ok h
      exact ⟨(BTreeMap.contains_eq_false_iff _ _).mpr (hid ▸ hnone), hid ▸ candidate_ne_zero,
        hext.schemas ((BiMap.getByLeft_insert hent).mpr (.inr ⟨rfl, rfl⟩))⟩
  fails {name encoding data e} hc h := by
    revert h
    refine addSchema_cases hs (fun _ _ h => by cases h) (fun _ hfull h => ?_)
      fun canonicalSchemas id' hid _ hnone hent hs' h => ?_
    · cases h
      exact .inl ⟨rfl, fun id hid => hs.schemas.all_taken hfull hid⟩
    · exact .inr ((defines (written_schema _ _) hs' _).err h)
  panics {name encoding data} h := by
    revert h
    refine addSchema_cases hs (fun _ _ h => by cases h) (fun _ _ h => by cases h)
      fun canonicalSchemas id' hid _ hnone hent hs' h => ?_
    exact (defines (written_schema _ _) hs' _).panic h
  known hc hf := addSchema_known ((good_of_follows hs hf).grows.schemas hc)
  first hc hf hc' := by
    have hg := good_of_follows hs hf
    exact hs.schemas.first hg.sound.schemas hg.grows.schemas hg.grows.schemaIds hc hc'

theorem allocatesChannels (hs : w.Sound) : AllocatesChannels w where
  fresh {schemaId topic encoding metadata id w'} hc h := by
    revert h
    refine addChannel_cases hs (fun id' hc' => ?_) (fun _ _ h => by cases h)
      (fun _ _ h => by cases h) fun canonicalChannels id' hid _ _ hnone hent hs' h => ?_
    · rw [hc] at hc'
      cases hc'
    · obtain ⟨rfl, hext⟩ := (defines (written_channel _ _) hs' _).ok h
      exact ⟨(BTreeMap.contains_eq_false_iff _ _).mpr (hid ▸ hnone),
        hext.channels ((BiMap.getByLeft_insert hent).mpr (.inr ⟨rfl, rfl⟩))⟩
  fails {schemaId topic encoding metadata e} hc h := by
    revert h
    refine addChannel_cases hs (fun _ _ h => by cases h) (fun _ hunk h => ?_)
      (fun _ hfull h => ?_) fun canonicalChannels id' hid _ _ hnone hent hs' h => ?_
    · cases h
      exact .inr (.inl ⟨rfl, hunk⟩)
    · cases h
      exact .inl ⟨rfl, fun id hid => hs.channels.all_taken hfull hid⟩
    · exact .inr (.inr ((defines (written_channel _ _) hs' _).err h))
  panics {schemaId topic encoding metadata} h := by
    revert h
    refine addChannel_cases hs (fun _ _ h => by cases h) (fun _ _ h => by cases h)
      (fun _ _ h => by cases h) fun canonicalChannels id' hid _ _ hnone hent hs' h => ?_
    exact (defines (written_channel _ _) hs' _).panic h
  known hc hf := addChannel_known ((good_of_follows hs hf).grows.channels hc)
  first hc hf hc' := by
    have hg := good_of_follows hs hf
    exact hs.channels.first hg.sound.channels hg.grows.channels hg.grows.channelIds hc hc'

/-- **Ids are allocated in order**, in every state a writer can reach and whatever the
stream does. -/
theorem ids_allocated (h : Reaches w) : AllocatesSchemas w ∧ AllocatesChannels w :=
  ⟨allocatesSchemas h.sound, allocatesChannels h.sound⟩

theorem ids_allocated_fresh : ∃ w : Writer Empty Stream,
    withOptions Stream.empty plainOptions = .ok w ∧ AllocatesSchemas w ∧ AllocatesChannels w :=
  ⟨_, rfl, ids_allocated (.start (show withOptions Stream.empty plainOptions = .ok _ from rfl))⟩

/-- **A new schema without an id**: while an attachment is in progress the call is
refused. -/
theorem schema_refused : ∃ w : Writer Empty Stream,
    withOptions Stream.empty plainOptions = .ok w ∧
      Reaches (Op.runAll [.startAttachment 1 ⟨0, 0, "", ""⟩] w).2 ∧
      (Op.runAll [.startAttachment 1 ⟨0, 0, "", ""⟩] w).2.canonicalSchemas.getByLeft
        ⟨"a", "", []⟩ = none ∧
      (addSchema "a" "" [] (Op.runAll [.startAttachment 1 ⟨0, 0, "", ""⟩] w).2).1 =
        .err .attachmentNotInProgress := by
  refine ⟨_, rfl, ?_, ?_, ?_⟩
  · refine Reaches.runAll (.start (show withOptions Stream.empty plainOptions = .ok _ from rfl)) ?_
    decide +kernel
  · decide +kernel
  · decide +kernel

end Writer
end Mcap
