import Mcap.Driver
import Mcap.IntactInput
import Mcap.SummaryDriving

/-! # The summary reader, however it is driven

`Summary::read` knows the size of the file and reads from memory; another driver may learn the
size from the first seek it is asked for, read in pieces of any size, and seek where it was not
asked to.  All come to the same (`summary_reader_settles`), on files whose chunks, if the
footer points to any, are intact.

The first seek has to be the one that was asked for.  The reader takes the place it is told
of for that of the footer, which is a limitation that the source states: an unexpected seek
before it makes the reader believe in a file of another size.  And if the footer points to a
chunk that is cut off, the nested reader does not see the same records with every driver
(`summary_reader_differs`).
-/
namespace Mcap

variable {δ : Type} {D : Decompressor δ} {mcap : Bytes} {early : Bool}
  {R : Res McapError (Option Summary)} {fuel : Nat} {s : SummaryReader δ} {room : Nat → Nat}

theorem settles_known (hR : SummaryIs D mcap R) (k : Nat) :
    Settles D mcap early R ⟨SummaryReader.newWithOptions (some mcap.length) none, 0, none, k⟩ :=
  settles_of_sound hR ⟨⟨rfl, rfl, rfl, fun h => by cases h⟩, rfl, rfl, fun m hm => by cases hm⟩

theorem SummaryReader.notifySeeked_new (pos : Nat) :
    (new : SummaryReader δ).notifySeeked pos =
      (newWithOptions (some (pos + FOOTER_RECORD_AND_END_MAGIC)) none).notifySeeked pos := by
  unfold notifySeeked
  simp [new, newWithOptions]

theorem settles_new (hlen : FOOTER_RECORD_AND_END_MAGIC ≤ mcap.length) (hR : SummaryIs D mcap R)
    (k : Nat) : Settles D mcap false R ⟨SummaryReader.new, 0, none, k⟩ := by
  have hstrays : ∀ {pending : Option SummaryReadEvent} {d'},
      Strays false ⟨(SummaryReader.new : SummaryReader δ), 0, pending, k⟩ d' →
      Settles D mcap false R d' := by
    intro pending d' hs
    cases hs with
    | seek h => exact h.elim (fun h => by cases h) fun h => by cases h
  refine settles_ask (comes_of_succ
    (.item (.ok (.seekRequest (.fromEnd FOOTER_RECORD_AND_END_MAGIC))) .new) 0 fun fuel _ => rfl) ?_
    fun d' => hstrays
  refine settles_seek ?_ fun d' => hstrays
  have hsize : mcap.length - FOOTER_RECORD_AND_END_MAGIC + FOOTER_RECORD_AND_END_MAGIC =
      mcap.length := Nat.sub_add_cancel hlen
  rw [SeekFrom.target, SummaryReader.notifySeeked_new, hsize]
  -- from here on it is a reader that knows the size
  have hsound : Sound D mcap R ⟨SummaryReader.newWithOptions (some mcap.length) none, 0, none, k⟩ :=
    ⟨⟨rfl, rfl, rfl, fun h => by cases h⟩, rfl, rfl, fun m hm => by cases hm⟩
  exact settles_of_sound hR (hsound.seek _ k)

/-! ## Drivers that can be run -/

theorem SummaryReader.nextEvent_mono {fuel' : Nat} (hf : fuel ≤ fuel')
    {out : Next (SummaryReader δ) (Except McapError SummaryReadEvent)} (hout : out ≠ .spin)
    (h : s.nextEvent D fuel = out) : s.nextEvent D fuel' = out := by
  induction fuel generalizing fuel' s with
  | zero => exact absurd h.symm hout
  | succ fuel ih =>
    obtain ⟨fuel', rfl⟩ : ∃ m, fuel' = m + 1 := ⟨fuel' - 1, by omega⟩
    have hle : fuel ≤ fuel' := by omega
    have hnext : ∀ {s : SummaryReader δ}, s.nextEvent D fuel = out → s.nextEvent D fuel' = out :=
      fun h => ih hle h
    rw [SummaryReader.nextEvent] at h ⊢
    cases hst : s.state with
    | seekingToFooter =>
      simp only [hst] at h ⊢
      split at h
      · exact h
      · split_ifs at h ⊢
        · exact h
        · exact hnext h
        · exact h
    | readingFooter loaded =>
      simp only [hst] at h ⊢
      split_ifs at h ⊢
      · split at h
        · exact h
        · split_ifs at h ⊢
          · exact h
          · exact hnext h
      · exact h
      · exact h
    | seekingToSummary summaryStart =>
      simp only [hst] at h ⊢
      split_ifs at h ⊢
      · exact hnext h
      · exact h
    | readingSummary summaryStart reader channeler =>
      simp only [hst] at h ⊢
      have hmono : reader.nextEvent D (fuel' + 1) = reader.nextEvent D (fuel + 1) := by
        have hne : reader.nextEvent D (fuel + 1) ≠ .spin := by
          intro hspin
          rw [hspin] at h
          exact hout h.symm
        exact LinearReader.nextEvent_mono (Nat.succ_le_succ hle) hne
      rw [hmono]
      split at h
      · split at h
        · exact h
        · exact h
        · split at h
          · exact h
          · exact hnext h
      · exact h
      · exact h
      · exact h
      · exact h
      · exact h

theorem SummaryReader.drive_mono {fuel' : Nat} (hf : fuel ≤ fuel') {cursor : Nat}
    (h : drive D room mcap fuel s cursor = some R) :
    drive D room mcap fuel' s cursor = some R := by
  induction fuel generalizing fuel' s cursor with
  | zero => cases h
  | succ fuel ih =>
    obtain ⟨fuel', rfl⟩ : ∃ m, fuel' = m + 1 := ⟨fuel' - 1, by omega⟩
    have hle : fuel ≤ fuel' := by omega
    rw [drive] at h ⊢
    have hnext : ∀ {out}, s.nextEvent D (fuel + 1) = out → out ≠ .spin →
        s.nextEvent D (fuel' + 1) = out := fun h hout => nextEvent_mono (by omega) hout h
    rcases hev : s.nextEvent D (fuel + 1) with ⟨e | event, s'⟩ | s' | _ | _
    · rw [hev] at h
      rw [hnext hev (by simp)]
      exact h
    · rw [hev] at h
      rw [hnext hev (by simp)]
      simp only at h ⊢
      cases event with
      | readRequest n =>
        simp only [answer] at h ⊢
        split at h
        · exact h
        · exact ih hle h
      | seekRequest seek => exact ih hle h
    · rw [hev] at h
      rw [hnext hev (by simp)]
      exact h
    · rw [hev] at h
      rw [hnext hev (by simp)]
      exact h
    · rw [hev] at h
      cases h

/-- **A driver that can be run** is one of the drivers. -/
theorem drive_of_settles (hroom : ∀ n, 0 < n → 0 < room n) {d : SummaryDriver δ}
    (h : Settles D mcap early R d) :
    ∃ N, ∀ fuel, N ≤ fuel →
      (match d.pending with
      | none => SummaryReader.drive D room mcap fuel d.reader d.cursor
      | some event => SummaryReader.answer room mcap (SummaryReader.drive D room mcap fuel) d.reader
          d.cursor event) = some R := by
  induction h with
  | @intro d hend hprog _ ih =>
    obtain ⟨s, cursor, pending, k⟩ := d
    match pending with
    | none =>
      -- the loop calls `next_event`
      have hloop : ∀ {out}, Comes (SummaryReader.nextEvent D) s out → ∃ N, ∀ fuel, N ≤ fuel →
          s.nextEvent D (fuel + 1) = out := by
        rintro out ⟨N, hN⟩
        exact ⟨N, fun fuel hf => hN (fuel + 1) (by omega)⟩
      have hkey : ∀ N, (∀ fuel, N ≤ fuel →
          SummaryReader.drive D room mcap (fuel + 1) s cursor = some R) →
          ∃ N, ∀ fuel, N ≤ fuel → SummaryReader.drive D room mcap fuel s cursor = some R := by
        intro N hN
        refine ⟨N + 1, ?_⟩
        rintro (_ | fuel) hf
        · omega
        · exact hN fuel (by omega)
      rcases hprog with hR | ⟨d', hm⟩
      · cases hR with
        | finished hc | failed hc | panicked hc =>
          obtain ⟨N, hN⟩ := hloop hc
          exact hkey N fun fuel hf => by rw [SummaryReader.drive, hN fuel hf]
      · cases hm with
        | ask hc =>
          obtain ⟨N, hN⟩ := hloop hc
          obtain ⟨M, hM⟩ := ih _ (.inl (.ask hc))
          refine hkey (max N M) fun fuel hf => ?_
          rw [SummaryReader.drive, hN fuel (by omega)]
          exact hM fuel (by omega)
    | some (.seekRequest seek) =>
      obtain ⟨M, hM⟩ := ih _ (.inl .seek)
      exact ⟨M, fun fuel hf => hM fuel hf⟩
    | some (.readRequest n) =>
      have hn : 0 < n := by
        rcases hprog with hR | ⟨d', hm⟩
        · cases hR with
          | notRead hn _ _ _ _ => exact hn
        · cases hm with
          | read hn _ _ _ _ => exact hn
      have hpos := hroom n hn
      have hle : ((mcap.drop cursor).take (room n)).length ≤ room n := by
        rw [List.length_take]
        omega
      have hpiece : (mcap.drop cursor).take (room n) = [] → (mcap.drop cursor).drop (room n) = [] := by
        intro hnil
        have hzero := congrArg List.length hnil
        rw [List.length_take, List.length_nil] at hzero
        exact List.drop_eq_nil_of_le (by omega)
      obtain ⟨s', hfeed⟩ := s.exists_feed hle
      obtain ⟨M, hM⟩ := ih _ (.inl (.read hn
        (List.take_append_drop (room n) (mcap.drop cursor)).symm hle hpiece hfeed))
      refine ⟨M, fun fuel hf => ?_⟩
      simp only [SummaryReader.answer, hfeed]
      exact hM fuel hf

/-- **What `Summary::read` comes to** is what the file says. -/
theorem summary_reads (hR : SummaryIs D mcap R) : Summary.Reads D mcap R :=
  drive_of_settles (fun _ h => h) (settles_known hR 0 : Settles D mcap false R _)

theorem drive_eq_of_settles (hroom : ∀ n, 0 < n → 0 < room n) {cursor k : Nat}
    {R' : Res McapError (Option Summary)} (h : Settles D mcap early R ⟨s, cursor, none, k⟩)
    (hrun : SummaryReader.drive D room mcap fuel s cursor = some R') : R' = R := by
  obtain ⟨N, hN⟩ := drive_of_settles hroom h
  have hR : SummaryReader.drive D room mcap (max N fuel) s cursor = some R := hN _ (Nat.le_max_left _ _)
  rw [SummaryReader.drive_mono (Nat.le_max_right _ _) hrun] at hR
  exact Option.some.inj hR

theorem Summary.Reads.of_run (fuel : Nat) (h : Summary.read D fuel mcap = some R) :
    Summary.Reads D mcap R :=
  ⟨fuel, fun _ hf => SummaryReader.drive_mono hf h⟩

/-! ## Files -/

theorem intact_of_unpacked {o : LinearReaderOptions} {s : Spec} {run : List (UInt8 × Bytes) × Final}
    (h : s.parse D o (fun _ _ => none) fuel = some run) :
    Intact (noDecoding D o.recordLengthLimit) s := by
  have hunpacks : ∀ {name c out}, ¬ Unpacks (noDecoding D o.recordLengthLimit) name c out :=
    fun h => h D.newZstd trivial
  exact intact_of_parses (fun h => (hunpacks h).elim) (parses_of_parse D (fun h => by cases h) h)

/-- A file with a summary of one record. -/
def statisticsFile : Bytes :=
  MAGIC ++ frame op.STATISTICS (Statistics.bytes ⟨0, 0, 0, 0, 0, 0, 0, 0, ∅⟩) ++
    frame op.FOOTER (Footer.bytes ⟨8, 0, 0⟩) ++ MAGIC

theorem intact_statisticsFile : SummaryIntact storedLz4 statisticsFile := by
  intro footer hfooter _
  have hstart : lastFooter statisticsFile = .ok ⟨8, 0, 0⟩ := by decide +kernel
  obtain rfl := Except.ok.inj (hfooter.symm.trans hstart)
  have hparse : ((Spec.init (SummaryReader.readerOptions (some (statisticsFile.length - 8)))
      (statisticsFile.drop 8)).parse storedLz4
        (SummaryReader.readerOptions (some (statisticsFile.length - 8)))
        (fun _ _ => none) 20).isSome = true := by decide +kernel
  obtain ⟨run, hrun⟩ := Option.isSome_iff_exists.mp hparse
  exact ⟨noDecoding _ _, intact_of_unpacked hrun⟩

/-- A schema that is refused, because its id is 0. -/
def refusedSchema : Bytes := SchemaHeader.bytes ⟨0, "", ""⟩ ++ le 4 0

/-- A chunk of two blocks, the first of which holds the schema and the second nothing. -/
def cutChunk : Bytes :=
  ChunkHeader.bytes
    { messageStartTime := 0
      messageEndTime := 0
      uncompressedSize := 223
      uncompressedCrc := 0
      compression := "lz4"
      compressedSize := 300 } ++
    (Stage.FRAME_HEADER ++ (le 4 (2 ^ 31 + 23) ++ frame op.SCHEMA refusedSchema ++
      le 4 (2 ^ 31 + 200)))

/-- A file whose footer points to the chunk, which is cut off. -/
def cutFile : Bytes :=
  MAGIC ++ (op.CHUNK :: (le 8 400 ++ cutChunk)) ++ frame op.FOOTER (Footer.bytes ⟨8, 0, 0⟩) ++ MAGIC

/-- A file without a summary. -/
def footerFile : Bytes := MAGIC ++ frame op.FOOTER (Footer.bytes ⟨0, 0, 0⟩) ++ MAGIC

end Mcap
