import Mcap.IndexedRuns

/-! # Messages with equal log times

For equal log times the reader promises file order, or its reverse.  A chunk is
loaded before a message is yielded only if it starts **strictly** before the message,
so a chunk that starts at the log time of the message is loaded after it, also when
the chunk is before the message in the file.

`Overtakes` is exactly this situation, and `ties_spec` says that nothing else goes
wrong: the order of a run in which each requested chunk is inserted is the promised
one if and only if no chunk is overtaken.
-/
namespace Mcap
open IndexedReader

variable {C : Codecs} {file : Bytes} {summary : Summary}

/-- The selected messages of a chunk. -/
def selectedIn (summary : Summary) (options : IndexedReaderOptions) (c : Placed × ChunkIndex) :
    List Located :=
  c.1.messages.filter fun l => selects summary options l.header

/-- The order that is promised: by log time, and for equal log times in file order;
or the reverse of that. -/
def promised (order : ReadOrder) (selected : List Located) : List Located :=
  match order with
  | .logTime => selected.insertionSort fun a b => a.header.logTime ≤ b.header.logTime
  | .reverseLogTime =>
      (selected.insertionSort fun a b => a.header.logTime ≤ b.header.logTime).reverse
  | .file => selected

/-- **A chunk is overtaken.**  `A` is before `B` in the file, but is loaded after it;
and both hold a selected message at the bound at which the one that waits is due. -/
def Overtakes (F : IndexedFile C file summary) (options : IndexedReaderOptions) : Prop :=
  match options.order with
  | .logTime => ∃ A ∈ F.chunks, ∃ B ∈ F.chunks, A.1.start < B.1.start ∧
      B.2.messageStartTime < A.2.messageStartTime ∧
      (∃ l ∈ selectedIn summary options A, l.header.logTime = A.2.messageStartTime) ∧
      ∃ l ∈ selectedIn summary options B, l.header.logTime = A.2.messageStartTime
  | .reverseLogTime => ∃ A ∈ F.chunks, ∃ B ∈ F.chunks, A.1.start < B.1.start ∧
      B.2.messageEndTime < A.2.messageEndTime ∧
      (∃ l ∈ selectedIn summary options A, l.header.logTime = B.2.messageEndTime) ∧
      ∃ l ∈ selectedIn summary options B, l.header.logTime = B.2.messageEndTime
  | .file => False

/-! ## The promised order -/

theorem pairwise_insertionSort_stable {α : Type} {p s : α → α → Prop} [DecidableRel p]
    [Std.Total p] [IsTrans α p] {l : List α} (h : l.Pairwise s) :
    (l.insertionSort p).Pairwise fun a b => p a b ∧ (p b a → s a b) := by
  induction l with
  | nil => exact .nil
  | cons x l ih =>
    obtain ⟨hx, hl⟩ := List.pairwise_cons.mp h
    have hins : ∀ m : List α, (∀ y ∈ m, s x y) → (m.Pairwise fun a b => p a b ∧ (p b a → s a b)) →
        (m.orderedInsert p x).Pairwise fun a b => p a b ∧ (p b a → s a b) := by
      intro m hm hpair
      induction m with
      | nil => exact List.pairwise_singleton _ _
      | cons y m ihm =>
        obtain ⟨hy, hpair'⟩ := List.pairwise_cons.mp hpair
        rw [List.orderedInsert_cons]
        split
        · rename_i hxy
          refine List.pairwise_cons.mpr ⟨fun z hz => ⟨?_, fun _ => hm z hz⟩, hpair⟩
          rcases List.mem_cons.mp hz with rfl | hz
          · exact hxy
          · exact IsTrans.trans _ _ _ hxy (hy z hz).1
        · rename_i hxy
          refine List.pairwise_cons.mpr ⟨fun z hz => ?_,
            ihm (fun z hz => hm z (List.mem_cons_of_mem _ hz)) hpair'⟩
          rcases (List.mem_orderedInsert p).mp hz with rfl | hz
          · exact ⟨(Std.Total.total y z).resolve_right hxy, fun h => absurd h hxy⟩
          · exact hy z hz
    exact hins _ (fun y hy => hx y ((List.mem_insertionSort p).mp hy)) (ih hl)

instance : Std.Total fun a b : Located => a.header.logTime ≤ b.header.logTime :=
  ⟨fun a b => UInt64.le_total a.header.logTime b.header.logTime⟩

instance : IsTrans Located fun a b => a.header.logTime ≤ b.header.logTime :=
  ⟨fun _ _ _ h h' => UInt64.le_trans h h'⟩

theorem promised_perm (order : ReadOrder) (selected : List Located) :
    (promised order selected).Perm selected := by
  cases order with
  | logTime => exact List.perm_insertionSort _ _
  | reverseLogTime => exact (List.reverse_perm _).trans (List.perm_insertionSort _ _)
  | file => exact .refl _

theorem pairwise_promised (F : IndexedFile C file summary) (options : IndexedReaderOptions)
    (order : ReadOrder) :
    (promised order (F.selected options)).Pairwise fun a b => a.key order ≤ b.key order := by
  have hstable := pairwise_insertionSort_stable
    (p := fun a b : Located => a.header.logTime ≤ b.header.logTime) (F.pairwise_selected options)
  cases order with
  | logTime =>
    refine hstable.imp fun {a b} h => ?_
    simp only [UInt64.le_iff_toNat_le] at h
    simp only [Located.key, Prod.Lex.toLex_le_toLex]
    omega
  | reverseLogTime =>
    refine List.pairwise_reverse.mpr (hstable.imp fun {a b} h => ?_)
    simp only [UInt64.le_iff_toNat_le] at h
    simp only [Located.key, Prod.Lex.toLex_le_toLex]
    omega
  | file =>
    refine (F.pairwise_selected options).imp fun {a b} h => ?_
    simp only [Located.key, Prod.Lex.toLex_le_toLex]
    omega

/-! ## When a chunk is overtaken -/

section
variable {F : IndexedFile C file summary} {options : IndexedReaderOptions} {r : IndexedReader}
  {waiting : List (Placed × ChunkIndex)}

theorem entries_eq_selectedIn (ht : TopicsMatch summary options) (order : ReadOrder)
    (c : Placed × ChunkIndex) :
    (merge order (Filter.accepts (filterOf summary options))).entries c =
      selectedIn summary options c :=
  List.filter_congr fun l _ => accepts_eq_selects ht l.header

theorem IndexedFile.Plan.mem_of_selected (h : F.Plan options r waiting)
    (ht : TopicsMatch summary options) {c : Placed × ChunkIndex} (hc : c ∈ F.chunks) {l : Located}
    (hl : l ∈ selectedIn summary options c) : c ∈ waiting := by
  refine h.perm.mem_iff.mpr (List.mem_filter.mpr ⟨hc, ?_⟩)
  by_contra hun
  have hnil := entries_of_unused options.order (F.indexed c hc)
    (Bool.eq_false_iff.mpr hun)
  rw [entries_eq_selectedIn ht, List.eq_nil_iff_forall_not_mem] at hnil
  exact hnil l hl

/-- What a message overtaken by a waiting chunk says about log times, for the chunk
`c` of the message and the waiting chunk `d`. -/
theorem overtaken_iff (ht : TopicsMatch summary options) {c d : Placed × ChunkIndex} {e : Located}
    (hc : c ∈ F.chunks) (hd : d ∈ F.chunks) (hcd : c ≠ d) (he : e ∈ selectedIn summary options c) :
    (merge options.order (Filter.accepts (filterOf summary options))).Overtaken e d ↔
      match options.order with
      | .logTime => d.1.start < c.1.start ∧ e.header.logTime = d.2.messageStartTime ∧
          ∃ x ∈ selectedIn summary options d, x.header.logTime = d.2.messageStartTime
      | .reverseLogTime => c.1.start < d.1.start ∧ e.header.logTime = d.2.messageEndTime ∧
          ∃ x ∈ selectedIn summary options d, x.header.logTime = d.2.messageEndTime
      | .file => False := by
  have hne := F.dataStart_ne hc hd hcd
  have hlt := F.start_lt_iff hc hd
  have hgt := F.start_lt_iff hd hc
  have heds := (locate_dataStart (List.mem_of_mem_filter he)).1
  have hover : (merge options.order (Filter.accepts (filterOf summary options))).Overtaken e d ↔
      e.time options.order = chunkBound options.order d ∧ ∃ x ∈ selectedIn summary options d,
        x.time options.order = chunkBound options.order d ∧
          x.key options.order < e.key options.order := by
    rw [Merge.Overtaken, entries_eq_selectedIn ht]
    rfl
  rw [hover]
  clear hover
  have hxds : ∀ x ∈ selectedIn summary options d, x.dataStart = d.1.dataStart := fun x hx =>
    (locate_dataStart (List.mem_of_mem_filter hx)).1
  cases horder : options.order with
  | logTime | reverseLogTime =>
    simp only [Located.time, chunkBound, Located.key, ← UInt64.toNat_inj, Prod.Lex.toLex_lt_toLex]
    constructor
    · rintro ⟨het, x, hx, hxt, hkey⟩
      have := hxds x hx
      exact ⟨by omega, by omega, x, hx, by omega⟩
    · rintro ⟨hstart, het, x, hx, hxt⟩
      have := hxds x hx
      exact ⟨by omega, x, hx, by omega, by omega⟩
  | file =>
    simp only [Located.time, chunkBound, iff_false, not_and]
    intro het
    omega

theorem IndexedFile.Plan.rel_of_loadKey_lt (h : F.Plan options r waiting)
    {Q : Placed × ChunkIndex → Placed × ChunkIndex → Prop} (hQ : waiting.Pairwise Q)
    {c d : Placed × ChunkIndex} (hc : c ∈ waiting) (hd : d ∈ waiting)
    (hlt : IndexedFile.loadKey options.order c < IndexedFile.loadKey options.order d) : Q c d := by
  let R : Placed × ChunkIndex → Placed × ChunkIndex → Prop := fun c d =>
    IndexedFile.loadKey options.order c ≤ IndexedFile.loadKey options.order d ∧ Q c d
  have hR : waiting.Pairwise fun c d => R c d ∨ R d c :=
    (h.pairwise.and hQ).imp fun hcd => .inl hcd
  have : Std.Symm fun c d => R c d ∨ R d c := ⟨fun _ _ h => h.symm⟩
  have hne : c ≠ d := fun heq => absurd hlt (by rw [heq]; exact lt_irrefl _)
  rcases hR.forall hc hd hne with hcd | hdc
  · exact hcd.2
  · exact absurd hdc.1 (not_le.mpr hlt)

/-- **No tie is lost exactly if no chunk is overtaken.** -/
theorem noTie_iff (h : F.Plan options r waiting) (ht : TopicsMatch summary options) :
    (merge options.order (Filter.accepts (filterOf summary options))).NoTie ⟨[], waiting⟩ ↔
      ¬ Overtakes F options := by
  have hnodup : waiting.Nodup := h.perm.nodup_iff.mpr (F.nodup_chunks.filter _)
  have hpair : (merge options.order (Filter.accepts (filterOf summary options))).NoTie
      ⟨[], waiting⟩ ↔ waiting.Pairwise fun c d => ∀ e ∈ selectedIn summary options c,
        ¬ (merge options.order (Filter.accepts (filterOf summary options))).Overtaken e d := by
    constructor
    · intro hn
      refine hn.waiting.imp fun {c d} hcd e he => hcd e ?_
      rwa [entries_eq_selectedIn ht]
    · intro hp
      refine ⟨by simp, hp.imp fun {c d} hcd e he => hcd e ?_⟩
      rwa [entries_eq_selectedIn ht] at he
  rw [hpair]
  constructor
  · intro hp hover
    unfold Overtakes at hover
    cases horder : options.order with
    | logTime =>
      simp only [horder] at hover
      obtain ⟨A, hA, B, hB, hstart, htime, ⟨x, hx, hxt⟩, e, he, het⟩ := hover
      have hne : B ≠ A := fun heq => absurd hstart (by rw [heq]; exact Nat.lt_irrefl _)
      refine h.rel_of_loadKey_lt hp (h.mem_of_selected ht hB he) (h.mem_of_selected ht hA hx) ?_
        e he ?_
      · rw [UInt64.lt_iff_toNat_lt] at htime
        simp only [horder, IndexedFile.loadKey, Prod.Lex.toLex_lt_toLex]
        omega
      · rw [overtaken_iff ht hB hA hne he, horder]
        exact ⟨hstart, het, x, hx, hxt⟩
    | reverseLogTime =>
      simp only [horder] at hover
      obtain ⟨A, hA, B, hB, hstart, htime, ⟨e, he, het⟩, x, hx, hxt⟩ := hover
      have hne : A ≠ B := fun heq => absurd hstart (by rw [heq]; exact Nat.lt_irrefl _)
      refine h.rel_of_loadKey_lt hp (h.mem_of_selected ht hA he) (h.mem_of_selected ht hB hx) ?_
        e he ?_
      · rw [UInt64.lt_iff_toNat_lt] at htime
        simp only [horder, IndexedFile.loadKey, Prod.Lex.toLex_lt_toLex]
        omega
      · rw [overtaken_iff ht hA hB hne he, horder]
        exact ⟨hstart, het, x, hx, hxt⟩
    | file =>
      simp only [horder] at hover
  · intro hno
    refine (h.pairwise.and hnodup).imp_of_mem fun {c d} hc hd hcd e he hover => hno ?_
    obtain ⟨hkey, hne⟩ := hcd
    rw [overtaken_iff ht (h.mem hc) (h.mem hd) hne he] at hover
    unfold Overtakes
    cases horder : options.order with
    | logTime =>
      simp only [horder] at hover
      obtain ⟨hstart, het, x, hx, hxt⟩ := hover
      refine ⟨d, h.mem hd, c, h.mem hc, hstart, ?_, ⟨x, hx, hxt⟩, e, he, het⟩
      simp only [horder, IndexedFile.loadKey, Prod.Lex.toLex_le_toLex] at hkey
      rw [UInt64.lt_iff_toNat_lt]
      omega
    | reverseLogTime =>
      simp only [horder] at hover
      obtain ⟨hstart, het, x, hx, hxt⟩ := hover
      refine ⟨c, h.mem hc, d, h.mem hd, hstart, ?_, ⟨e, he, het⟩, x, hx, hxt⟩
      simp only [horder, IndexedFile.loadKey, Prod.Lex.toLex_le_toLex] at hkey
      rw [UInt64.lt_iff_toNat_lt]
      omega
    | file =>
      simp only [horder] at hover

end

/-! ## Runs that insert each requested chunk -/

theorem requested_may {c : Placed × ChunkIndex} {waiting : List (Placed × ChunkIndex)}
    {off : UInt64} {answer : UInt64 × Nat} (hoff : c.2.compressedDataOffset = .ok off)
    (h : requested (off, c.2.compressedSize.toNat) ((c :: waiting).map Prod.snd) answer) :
    ∃ (i : Nat) (d : Placed × ChunkIndex), i = 0 ∧ (c :: waiting)[i]? = some d ∧
      d.2.compressedDataOffset = .ok answer.1 ∧ answer.2 = d.2.compressedSize.toNat := by
  subst h
  exact ⟨0, c, rfl, rfl, hoff, rfl⟩

/-- **Ties, exactly.**  A run in which each requested chunk is inserted yields the
promised order if and only if no chunk is overtaken. -/
theorem ties_iff (F : IndexedFile C file summary) (options : IndexedReaderOptions)
    (hl : F.WithinLimit options) (ht : TopicsMatch summary options) :
    ∃ r, newWithOptions summary options = .ok r ∧
      Delivers C file requested r fun out =>
        out = promised options.order (F.selected options) ↔ ¬ Overtakes F options := by
  obtain ⟨r, waiting, hnew, hplan, hr⟩ := F.refines_new hl.used
  refine ⟨r, hnew, ?_⟩
  have hvalid := hplan.valid (Filter.accepts (filterOf summary options))
  refine delivers_of_merge (· = 0) requested_may
    ((Merge.delivers_inOrder time_le_of_key_le hvalid).mono fun out hout => ?_) hr
  rw [← noTie_iff hplan ht, ← hout.2]
  have hperm := hout.1.trans (hplan.left ht)
  constructor
  · rintro rfl
    exact pairwise_promised F options options.order
  · intro hsorted
    exact F.eq_of_pairwise_key hperm (promised_perm _ _) hsorted
      (pairwise_promised F options options.order)

theorem ties_iff_overlap :
    ∃ r, newWithOptions overlapSummary {} = .ok r ∧
      Delivers noCodecs overlapFile requested r fun out =>
        out = promised .logTime (overlapIndexed.selected {}) ↔ ¬ Overtakes overlapIndexed {} :=
  ties_iff overlapIndexed {} (fun _ h => (by cases h)) fun _ h => (by cases h)

/-- A run in which each requested chunk is inserted, as far as `fuel` goes. -/
def IndexedReader.drive (C : Codecs) (file : Bytes) : Nat → IndexedReader → Option (List Located)
  | 0, _ => none
  | fuel + 1, r =>
      match r.nextEvent with
      | (.ok (some (.message header data)), r') =>
          match r.position with
          | some (dataStart, offset) =>
              (drive C file fuel r').map (⟨dataStart, offset, header, data⟩ :: ·)
          | none => none
      | (.ok (some (.readChunkRequest offset length)), r') =>
          match r'.insertAnswer C file (offset, length) with
          | (.ok (), r'') => drive C file fuel r''
          | _ => none
      | (.ok none, _) => some []
      | _ => none

theorem IndexedReader.Delivers.drive {r : IndexedReader} {P : List Located → Prop}
    (h : Delivers C file requested r P) {fuel : Nat} {out : List Located}
    (hd : r.drive C file fuel = some out) : P out := by
  induction h generalizing fuel out with
  | message hpos hnext _ ih =>
    cases fuel with
    | zero => cases hd
    | succ fuel =>
      simp only [IndexedReader.drive, hnext, hpos, Option.map_eq_some_iff] at hd
      obtain ⟨rest, hrest, rfl⟩ := hd
      exact ih hrest
  | request hnext hok _ ih =>
    cases fuel with
    | zero => cases hd
    | succ fuel =>
      obtain ⟨r'', hr''⟩ := hok _ rfl
      simp only [IndexedReader.drive, hnext, hr''] at hd
      exact ih _ r'' rfl hr'' hd
  | done hnext hP =>
    cases fuel with
    | zero => cases hd
    | succ fuel =>
      simp only [IndexedReader.drive, hnext] at hd
      cases hd
      exact hP

/-- **A tie is lost.**  The message at 5 of the second chunk, whose data is at 168, is
yielded before the message at 5 of the first one, whose data is at 57: the first
chunk starts at 5, so it is not loaded before a message at 5 is yielded. -/
theorem ties_lost_overlap :
    ¬ ∀ (C : Codecs) (file : Bytes) (summary : Summary) (F : IndexedFile C file summary)
      (options : IndexedReaderOptions), F.WithinLimit options → TopicsMatch summary options →
      ∃ r, newWithOptions summary options = .ok r ∧
        Delivers C file requested r fun out =>
          out = promised options.order (F.selected options) := by
  intro h
  obtain ⟨r, hnew, hdel⟩ := h noCodecs overlapFile overlapSummary overlapIndexed {}
    (fun _ h => (by cases h)) fun _ h => (by cases h)
  have hrun : ((newWithOptions overlapSummary {}).toOption.bind
      (IndexedReader.drive noCodecs overlapFile 10)).map (·.map Located.dataStart) =
      some [168, 168, 57, 57] := by decide +kernel
  have hpromised : (promised .logTime (overlapIndexed.selected {})).map Located.dataStart =
      [168, 57, 168, 57] := by decide +kernel
  rw [hnew] at hrun
  obtain ⟨out, hout, hmap⟩ := Option.map_eq_some_iff.mp hrun
  rw [hdel.drive hout, hpromised] at hmap
  exact absurd hmap (by decide)

end Mcap
