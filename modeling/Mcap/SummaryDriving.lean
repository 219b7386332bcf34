import Mcap.Fragmentation
import Mcap.SummaryReader

/-! # Driving the summary reader

A driver of a `SummaryReader` has a cursor in the file.  It calls `next_event`, does what the
event asks for, and may seek where nobody asked it to, which it reports like any other seek
(`Strays`).  A read request is answered with some of the bytes at the cursor, and with none
only at the end of the file.

`Settles R d` says that from `d` every driver comes to an end, and that this is `R`.  The
invariant of a run is `Sound`: what the reader has in hand is what the file says.  It holds
whatever the driver does (`Sound.strays`), and from it a run goes down: through the footer, by
the bytes still missing; through the summary section, by induction on what every driver of
the nested reader sees; and after a seek nobody asked for by the number of those still to come.
-/
namespace Mcap

variable {δ : Type}

/-! ## Drivers -/

/-- A reader and the driver's side of it: the cursor, the event not answered yet, and how many
unexpected seeks there may still be. -/
structure SummaryDriver (δ : Type) where
  reader : SummaryReader δ
  cursor : Nat
  pending : Option SummaryReadEvent
  extra : Nat

section
variable (D : Decompressor δ) (mcap : Bytes)

/-- What a driver does: it asks for the next event, and does what it is asked to.  It answers a
request, which is for some bytes, with as many as it likes. -/
inductive Moves : SummaryDriver δ → SummaryDriver δ → Prop
  | ask {s s' ev cursor k} : Comes (SummaryReader.nextEvent D) s (.item (.ok ev) s') →
      Moves ⟨s, cursor, none, k⟩ ⟨s', cursor, some ev, k⟩
  | seek {s seek cursor k} :
      Moves ⟨s, cursor, some (.seekRequest seek), k⟩
        ⟨s.notifySeeked (seek.target mcap.length), seek.target mcap.length, none, k⟩
  | read {s s' n room cursor piece rest k} : 0 < n → mcap.drop cursor = piece ++ rest →
      piece.length ≤ room → (piece = [] → rest = []) → s.feed room piece = some s' →
      Moves ⟨s, cursor, some (.readRequest n), k⟩ ⟨s', cursor + piece.length, none, k⟩

/-- How a run ends. -/
inductive Ends : SummaryDriver δ → Res McapError (Option Summary) → Prop
  | finished {s s' cursor k} : Comes (SummaryReader.nextEvent D) s (.ended s') →
      Ends ⟨s, cursor, none, k⟩ (.ok s'.finish)
  | failed {s s' e cursor k} : Comes (SummaryReader.nextEvent D) s (.item (.error e) s') →
      Ends ⟨s, cursor, none, k⟩ (.err e)
  | panicked {s cursor k} : Comes (SummaryReader.nextEvent D) s .panic →
      Ends ⟨s, cursor, none, k⟩ .panic
  | notRead {s n room cursor piece rest k} : 0 < n → mcap.drop cursor = piece ++ rest →
      piece.length ≤ room → (piece = [] → rest = []) → s.feed room piece = none →
      Ends ⟨s, cursor, some (.readRequest n), k⟩ .panic

/-- An unexpected seek.  Unless it may be `early`, the reader knows the size of the file, from
its driver or from the first seek it asked for. -/
inductive Strays (early : Bool) : SummaryDriver δ → SummaryDriver δ → Prop
  | seek {s cursor pending k pos} : early = true ∨ s.fileSize.isSome = true →
      Strays early ⟨s, cursor, pending, k + 1⟩ ⟨s.notifySeeked pos, pos, pending, k⟩

/-- **From here every driver comes to `R`**: it does not end otherwise, it does not get stuck,
and it does not go on for ever. -/
inductive Settles (early : Bool) (R : Res McapError (Option Summary)) : SummaryDriver δ → Prop
  | intro {d} : (∀ R', Ends D mcap d R' → R' = R) → (Ends D mcap d R ∨ ∃ d', Moves D mcap d d') →
      (∀ d', Moves D mcap d d' ∨ Strays early d d' → Settles early R d') → Settles early R d

/-- The chunks in the summary section, if there are any, are intact. -/
def SummaryIntact : Prop :=
  ∀ footer, lastFooter mcap = .ok footer → footer.summaryStart ≠ 0 →
    ∃ Δ : Decoding D (some (mcap.length - footer.summaryStart.toNat)),
      Intact (o := SummaryReader.readerOptions (some (mcap.length - footer.summaryStart.toNat))) Δ
        (Spec.init (SummaryReader.readerOptions (some (mcap.length - footer.summaryStart.toNat)))
          (mcap.drop footer.summaryStart.toNat))

/-- **What the file says**: its footer, and the records from where the summary begins. -/
def SummaryIs (R : Res McapError (Option Summary)) : Prop :=
  match lastFooter mcap with
  | .error e => R = .err e
  | .ok footer =>
      if footer.summaryStart = 0 then R = .ok none
      else ∃ evs fin, R = summaryResult .empty .empty evs fin ∧
        Observes D (LinearReader.newWithOptions (SummaryReader.readerOptions
          (some (mcap.length - footer.summaryStart.toNat)))) (mcap.drop footer.summaryStart.toNat)
          evs fin

end

variable {D : Decompressor δ} {mcap : Bytes} {early : Bool} {R : Res McapError (Option Summary)}

theorem summaryIs_of_intact (h : SummaryIntact D mcap) : ∃ R, SummaryIs D mcap R := by
  unfold SummaryIs
  rcases hf : lastFooter mcap with e | footer
  · exact ⟨.err e, rfl⟩
  · by_cases h0 : footer.summaryStart = 0
    · exact ⟨.ok none, by simp only [if_pos h0]⟩
    · obtain ⟨Δ, hi⟩ := h footer hf h0
      obtain ⟨evs, fin, hobs⟩ := observes_of_intact hi
      exact ⟨_, by simp only [if_neg h0]; exact ⟨evs, fin, rfl, hobs⟩⟩

/-! ## One move at a time -/

/-- What a call of `next_event` leads to is settled. -/
def Resolves (D : Decompressor δ) (mcap : Bytes) (early : Bool) (R : Res McapError (Option Summary))
    (cursor k : Nat) : Next (SummaryReader δ) (Except McapError SummaryReadEvent) → Prop
  | .item (.ok ev) s => Settles D mcap early R ⟨s, cursor, some ev, k⟩
  | .item (.error e) _ => R = .err e
  | .ended s => R = .ok s.finish
  | .panic => R = .panic
  | .spin => False

section
variable {s : SummaryReader δ} {cursor k : Nat}

theorem settles_ask {out : Next (SummaryReader δ) (Except McapError SummaryReadEvent)}
    (hc : Comes (SummaryReader.nextEvent D) s out) (hout : Resolves D mcap early R cursor k out)
    (hs : ∀ d', Strays early ⟨s, cursor, none, k⟩ d' → Settles D mcap early R d') :
    Settles D mcap early R ⟨s, cursor, none, k⟩ := by
  refine .intro ?_ ?_ ?_
  · rintro R' hend
    cases hend with
    | finished hc' | failed hc' | panicked hc' => cases hc.unique hc'; exact hout.symm
  · cases out with
    | item a s' =>
      cases a with
      | ok ev => exact .inr ⟨_, .ask hc⟩
      | error e =>
        obtain rfl := hout
        exact .inl (.failed hc)
    | ended s' =>
      obtain rfl := hout
      exact .inl (.finished hc)
    | panic =>
      obtain rfl := hout
      exact .inl (.panicked hc)
    | spin => exact hout.elim
  · rintro d' (hm | hm)
    · cases hm with
      | ask hc' => cases hc.unique hc'; exact hout
    · exact hs d' hm

theorem settles_seek {seek : SeekFrom}
    (h : Settles D mcap early R
      ⟨s.notifySeeked (seek.target mcap.length), seek.target mcap.length, none, k⟩)
    (hs : ∀ d', Strays early ⟨s, cursor, some (.seekRequest seek), k⟩ d' →
      Settles D mcap early R d') :
    Settles D mcap early R ⟨s, cursor, some (.seekRequest seek), k⟩ := by
  refine .intro ?_ (.inr ⟨_, .seek⟩) ?_
  · rintro R' hend
    cases hend
  · rintro d' (hm | hm)
    · cases hm
      exact h
    · exact hs d' hm

theorem SummaryReader.exists_feed (s : SummaryReader δ) {n : Nat} {piece : Bytes}
    (hle : piece.length ≤ n) : ∃ s', s.feed n piece = some s' := by
  unfold feed
  cases hst : s.state with
  | readingFooter loaded => exact ⟨_, if_pos hle⟩
  | readingSummary start reader channeler =>
    obtain ⟨reader', hfeed⟩ := LinearReader.exists_feed (r := reader) hle
    simp only [hfeed]
    exact ⟨_, rfl⟩
  | _ => exact ⟨_, if_pos hle⟩

theorem settles_read {n : Nat} (hn : 0 < n)
    (h : ∀ room piece rest s', mcap.drop cursor = piece ++ rest → piece.length ≤ room →
      (piece = [] → rest = []) → s.feed room piece = some s' →
      Settles D mcap early R ⟨s', cursor + piece.length, none, k⟩)
    (hs : ∀ d', Strays early ⟨s, cursor, some (.readRequest n), k⟩ d' →
      Settles D mcap early R d') :
    Settles D mcap early R ⟨s, cursor, some (.readRequest n), k⟩ := by
  refine .intro ?_ (.inr ?_) ?_
  · rintro R' hend
    cases hend with
    | notRead _ _ hle _ hfeed =>
      obtain ⟨s', hs'⟩ := s.exists_feed hle
      rw [hs'] at hfeed
      cases hfeed
  · -- the driver can read all there is
    obtain ⟨s', hs'⟩ := s.exists_feed (Nat.le_refl (mcap.drop cursor).length)
    exact ⟨_, .read hn (List.append_nil _).symm (Nat.le_refl _) (fun _ => rfl) hs'⟩
  · rintro d' (hm | hm)
    · cases hm with
      | read _ hdrop hle hpiece hfeed => exact h _ _ _ _ hdrop hle hpiece hfeed
    · exact hs d' hm

theorem comes_of_succ (out : Next (SummaryReader δ) (Except McapError SummaryReadEvent)) (N : Nat)
    (h : ∀ fuel, N ≤ fuel → s.nextEvent D (fuel + 1) = out) :
    Comes (SummaryReader.nextEvent D) s out := by
  refine ⟨N + 1, ?_⟩
  rintro (_ | fuel) hf
  · omega
  · exact h fuel (by omega)

theorem comes_of_goes {S α : Type} {next : Nat → S → Next S α} {s s' : S}
    (h : ∃ N, ∀ fuel, N ≤ fuel → next (fuel + 1) s = next fuel s') {out : Next S α} :
    Comes next s out ↔ Comes next s' out := by
  obtain ⟨N, hN⟩ := h
  constructor
  · rintro ⟨M, hM⟩
    exact ⟨max N M, fun fuel hf => by rw [← hN fuel (by omega), hM (fuel + 1) (by omega)]⟩
  · rintro ⟨M, hM⟩
    refine ⟨max N M + 1, ?_⟩
    rintro (_ | fuel) hf
    · omega
    · rw [hN fuel (by omega), hM fuel (by omega)]

theorem settles_of_goes (s' : SummaryReader δ)
    (h : ∃ N, ∀ fuel, N ≤ fuel → s.nextEvent D (fuel + 1) = s'.nextEvent D fuel)
    (hset : Settles D mcap early R ⟨s', cursor, none, k⟩)
    (hs : ∀ d', Strays early ⟨s, cursor, none, k⟩ d' → Settles D mcap early R d') :
    Settles D mcap early R ⟨s, cursor, none, k⟩ := by
  have hiff : ∀ {out}, Comes (SummaryReader.nextEvent D) s out ↔
      Comes (SummaryReader.nextEvent D) s' out := comes_of_goes h
  obtain ⟨hend, hprog, hstep⟩ := hset
  refine .intro ?_ ?_ ?_
  · rintro R' hR
    cases hR with
    | finished hc => exact hend _ (.finished (hiff.mp hc))
    | failed hc => exact hend _ (.failed (hiff.mp hc))
    | panicked hc => exact hend _ (.panicked (hiff.mp hc))
  · rcases hprog with hR | ⟨d', hm⟩
    · left
      cases hR with
      | finished hc => exact .finished (hiff.mpr hc)
      | failed hc => exact .failed (hiff.mpr hc)
      | panicked hc => exact .panicked (hiff.mpr hc)
    · cases hm with
      | ask hc => exact .inr ⟨_, .ask (hiff.mpr hc)⟩
  · rintro d' (hm | hm)
    · cases hm with
      | ask hc => exact hstep _ (.inl (.ask (hiff.mp hc)))
    · exact hs d' hm

end
/-! ## The invariant -/

/-- The event `pending` is a read request for at least one byte, if it is one. -/
def Asks (pending : Option SummaryReadEvent) : Prop :=
  ∀ m, pending = some (.readRequest m) → 0 < m

/-- What every driver of the nested reader sees, whether it has been asked for bytes or not. -/
def NestedSees (D : Decompressor δ) (mcap : Bytes) (reader : LinearReader δ) (cursor : Nat)
    (evs : List (UInt8 × Bytes)) (fin : Final) : Option SummaryReadEvent → Prop
  | none => Observes D reader (mcap.drop cursor) evs fin
  | some (.readRequest n) => 0 < n ∧ ∀ {room piece rest reader'}, mcap.drop cursor = piece ++ rest →
      (piece = [] → rest = []) → reader.feed room piece = some reader' →
      Observes D reader' rest evs fin
  | some (.seekRequest _) => False

theorem NestedSees.of_observes {reader : LinearReader δ} {rest : Bytes} {cursor : Nat}
    {evs : List (UInt8 × Bytes)} {fin : Final} (h : Observes D reader rest evs fin)
    (hrest : rest = mcap.drop cursor) : NestedSees D mcap reader cursor evs fin none := by
  subst hrest
  exact h

/-- The footer says that the summary begins at `summaryStart`. -/
def SummaryAt (mcap : Bytes) (summaryStart : Nat) : Prop :=
  ∃ footer, lastFooter mcap = .ok footer ∧ footer.summaryStart ≠ 0 ∧
    footer.summaryStart.toNat = summaryStart

/-- Of the bytes of the footer and the magic behind it `loaded` are in the buffer. -/
structure FooterLoaded (mcap : Bytes) (s : SummaryReader δ) (cursor loaded : Nat) : Prop where
  size : FOOTER_RECORD_AND_END_MAGIC + 8 ≤ mcap.length
  le : loaded ≤ FOOTER_RECORD_AND_END_MAGIC
  cursor : cursor = mcap.length - FOOTER_RECORD_AND_END_MAGIC + loaded
  buf : s.footerBuf.take loaded = (mcap.drop (mcap.length - FOOTER_RECORD_AND_END_MAGIC)).take loaded
  length : loaded ≤ s.footerBuf.length

/-- **What the reader has in hand is what the file says.** -/
def InState (D : Decompressor δ) (mcap : Bytes) (R : Res McapError (Option Summary))
    (s : SummaryReader δ) (cursor : Nat) (pending : Option SummaryReadEvent) : Prop :=
  match s.state with
  | .seekingToFooter => s.summaryPresent = false ∧ s.summary = .empty ∧ Asks pending
  | .readingFooter loaded => s.summaryPresent = false ∧ s.summary = .empty ∧
      FooterLoaded mcap s cursor loaded ∧ Asks pending ∧
      ∀ seek, pending ≠ some (.seekRequest seek)
  | .seekingToSummary summaryStart => s.summaryPresent = true ∧ s.summary = .empty ∧
      SummaryAt mcap summaryStart ∧ Asks pending
  | .readingSummary summaryStart reader channeler => s.summaryPresent = true ∧
      SummaryAt mcap summaryStart ∧
      ∃ evs fin, R = summaryResult s.summary channeler evs fin ∧
        NestedSees D mcap reader cursor evs fin pending

/-- The reader knows where the driver is, and how long the file is. -/
structure Based (mcap : Bytes) (s : SummaryReader δ) (cursor : Nat) : Prop where
  pos : s.pos = cursor
  size : s.fileSize = some mcap.length
  limit : s.recordLengthLimit = none
  eof : s.atEof = true → mcap.length ≤ cursor

/-- **The invariant of a run**, once the reader knows the size of the file. -/
structure Sound (D : Decompressor δ) (mcap : Bytes) (R : Res McapError (Option Summary))
    (d : SummaryDriver δ) : Prop extends Based mcap d.reader d.cursor where
  state : InState D mcap R d.reader d.cursor d.pending

section
variable {s : SummaryReader δ} {cursor k : Nat} {pending : Option SummaryReadEvent}
  {piece rest : Bytes} {s' : SummaryReader δ} {summaryStart : Nat}

/-- The state after a seek. -/
def SummaryReader.State.afterSeek : SummaryReader.State δ → SummaryReader.State δ
  | .readingFooter _ => .seekingToFooter
  | .readingSummary summaryStart _ _ => .seekingToSummary summaryStart
  | state => state

theorem SummaryReader.notifySeeked_self {size : Nat} (hsize : s.fileSize = some size) :
    s.notifySeeked s.pos = s := by
  unfold notifySeeked
  simp only [hsize, ne_eq, not_true_eq_false, and_false, if_false, Option.isNone_some,
    Bool.false_eq_true]
  rw [← hsize]

theorem SummaryReader.notifySeeked_ne {size pos : Nat} (hsize : s.fileSize = some size)
    (hne : s.pos ≠ pos) :
    (s.notifySeeked pos).pos = pos ∧ (s.notifySeeked pos).fileSize = some size ∧
      (s.notifySeeked pos).recordLengthLimit = s.recordLengthLimit ∧
      (s.notifySeeked pos).atEof = false ∧
      (s.notifySeeked pos).summaryPresent = s.summaryPresent ∧
      (s.notifySeeked pos).state = s.state.afterSeek ∧
      ((s.notifySeeked pos).summary = .empty ∨ (s.notifySeeked pos).summary = s.summary ∧
        ∀ summaryStart reader channeler,
          s.state ≠ .readingSummary summaryStart reader channeler) := by
  unfold notifySeeked
  cases hst : s.state <;> cases heof : s.atEof <;>
    simp [hsize, hne, hst, heof, SummaryReader.State.afterSeek]

/-- **A seek, asked for or not, keeps the invariant.** -/
theorem Sound.seek (h : Sound D mcap R ⟨s, cursor, pending, k⟩) (pos k' : Nat) :
    Sound D mcap R ⟨s.notifySeeked pos, pos, pending, k'⟩ := by
  obtain ⟨⟨hpos, hsize, hlimit, heof⟩, hstate⟩ := h
  simp only at hpos hsize hlimit heof hstate
  by_cases hne : s.pos = pos
  · subst hne
    rw [SummaryReader.notifySeeked_self hsize, hpos]
    exact ⟨⟨hpos, hsize, hlimit, heof⟩, hstate⟩
  · obtain ⟨hp, hs, hl, he, hpresent, hst, hsummary⟩ := SummaryReader.notifySeeked_ne hsize hne
    refine ⟨⟨hp, hs, hl.trans hlimit, fun hf => ?_⟩, ?_⟩
    · simp only [he] at hf
      cases hf
    unfold InState at hstate ⊢
    simp only [hst, hpresent]
    cases hs : s.state with
    | seekingToFooter =>
      rw [hs] at hstate
      obtain ⟨h1, h2, h3⟩ := hstate
      exact ⟨h1, hsummary.elim (fun h => h) fun h => h.1.trans h2, h3⟩
    | readingFooter loaded =>
      rw [hs] at hstate
      obtain ⟨h1, h2, -, h3, -⟩ := hstate
      exact ⟨h1, hsummary.elim (fun h => h) fun h => h.1.trans h2, h3⟩
    | seekingToSummary summaryStart =>
      rw [hs] at hstate
      obtain ⟨h1, h2, h3, h4⟩ := hstate
      exact ⟨h1, hsummary.elim (fun h => h) fun h => h.1.trans h2, h3, h4⟩
    | readingSummary summaryStart reader channeler =>
      rw [hs] at hstate
      obtain ⟨h1, h2, evs, fin, -, h3⟩ := hstate
      refine ⟨h1, hsummary.elim (fun h => h) fun h => absurd hs (h.2 _ _ _), h2, fun m hm => ?_⟩
      subst hm
      exact h3.1

/-- **What a read does**, whatever the state. -/
theorem Based.feed {n : Nat} (hb : Based mcap s cursor) (hdrop : mcap.drop cursor = piece ++ rest)
    (hpiece : piece = [] → rest = []) (hfeed : s.feed n piece = some s') :
    Based mcap s' (cursor + piece.length) ∧ s'.summaryPresent = s.summaryPresent ∧
      s'.summary = s.summary := by
  -- no bytes are read only at the end of the file
  have heof : decide (piece.length = 0) = true → mcap.length ≤ cursor + piece.length := by
    intro h
    have hnil := List.length_eq_zero_iff.mp (of_decide_eq_true h)
    obtain rfl := hpiece hnil
    subst hnil
    have hlen := congrArg List.length hdrop
    simp only [List.length_drop, List.append_nil, List.length_nil] at hlen ⊢
    omega
  unfold SummaryReader.feed at hfeed
  simp only at hfeed
  split at hfeed
  · split at hfeed
    · cases hfeed
      exact ⟨⟨congrArg (· + piece.length) hb.pos, hb.size, hb.limit, heof⟩, rfl, rfl⟩
    · cases hfeed
  · split at hfeed
    · cases hfeed
    · cases hfeed
      exact ⟨⟨congrArg (· + piece.length) hb.pos, hb.size, hb.limit, heof⟩, rfl, rfl⟩
  · split at hfeed
    · cases hfeed
      exact ⟨⟨congrArg (· + piece.length) hb.pos, hb.size, hb.limit, heof⟩, rfl, rfl⟩
    · cases hfeed

theorem FooterLoaded.feed {loaded n : Nat} (hl : FooterLoaded mcap s cursor loaded)
    (hst : s.state = .readingFooter loaded) (hdrop : mcap.drop cursor = piece ++ rest)
    (hle : piece.length ≤ n) (hfeed : s.feed n piece = some s') :
    s'.state = .readingFooter (loaded + piece.length) ∧
      FooterLoaded mcap s' (cursor + piece.length) (loaded + piece.length) := by
  have hcursor := hl.cursor
  have hsize := hl.size
  -- there is no more in the file than the footer and the magic
  have hbytes : piece.length + rest.length = mcap.length - cursor := by
    have hlen := congrArg List.length hdrop
    rw [List.length_drop, List.length_append] at hlen
    omega
  have hloaded := hl.le
  unfold SummaryReader.feed at hfeed
  simp only [hst, if_pos hle, Option.some.injEq] at hfeed
  have hbuf' : s'.footerBuf = overwrite (resize s.footerBuf (loaded + n)) loaded piece := by
    rw [← hfeed]
  refine ⟨by rw [← hfeed], hl.size, by omega, by omega, ?_, ?_⟩
  · have hresize : loaded ≤ (resize s.footerBuf (loaded + n)).length := by
      rw [length_resize]
      omega
    rw [hbuf', take_overwrite hresize, take_resize hl.length (by omega), hl.buf, List.take_add,
      List.drop_drop, ← hcursor, hdrop, List.take_left]
  · rw [hbuf']
    simp only [overwrite, List.length_append, List.length_take, length_resize]
    omega

/-- **A read keeps the invariant**, also one that is late: asked for before a seek and done after
it. -/
theorem Sound.read {n room : Nat} (h : Sound D mcap R ⟨s, cursor, some (.readRequest n), k⟩)
    (hdrop : mcap.drop cursor = piece ++ rest) (hle : piece.length ≤ room)
    (hpiece : piece = [] → rest = []) (hfeed : s.feed room piece = some s') :
    Sound D mcap R ⟨s', cursor + piece.length, none, k⟩ := by
  obtain ⟨hb, hstate⟩ := h
  obtain ⟨hb', hpresent, hsummary⟩ := Based.feed hb hdrop hpiece hfeed
  refine ⟨hb', ?_⟩
  have hasks : Asks none := fun m hm => by cases hm
  unfold InState at hstate ⊢
  simp only at hstate ⊢
  rw [hpresent, hsummary]
  cases hst : s.state with
  | seekingToFooter =>
    rw [hst] at hstate
    have hst' : s'.state = .seekingToFooter := by
      unfold SummaryReader.feed at hfeed
      simp only [hst, if_pos hle, Option.some.injEq] at hfeed
      rw [← hfeed]
    rw [hst']
    exact ⟨hstate.1, hstate.2.1, hasks⟩
  | readingFooter loaded =>
    rw [hst] at hstate
    obtain ⟨h1, h2, hl, -, -⟩ := hstate
    obtain ⟨hst', hl'⟩ := hl.feed hst hdrop hle hfeed
    rw [hst']
    exact ⟨h1, h2, hl', fun m hm => (by cases hm), fun seek hm => (by cases hm)⟩
  | seekingToSummary summaryStart =>
    rw [hst] at hstate
    have hst' : s'.state = .seekingToSummary summaryStart := by
      unfold SummaryReader.feed at hfeed
      simp only [hst, if_pos hle, Option.some.injEq] at hfeed
      rw [← hfeed]
    rw [hst']
    exact ⟨hstate.1, hstate.2.1, hstate.2.2.1, hasks⟩
  | readingSummary summaryStart reader channeler =>
    rw [hst] at hstate
    obtain ⟨h1, hat, evs, fin, hR, -, hobs⟩ := hstate
    unfold SummaryReader.feed at hfeed
    simp only [hst] at hfeed
    split at hfeed
    · cases hfeed
    · rename_i reader' hreader
      cases hfeed
      refine ⟨h1, hat, evs, fin, hR, .of_observes (hobs hdrop hpiece hreader) ?_⟩
      rw [← List.drop_drop, hdrop, List.drop_left]

theorem Sound.forget {seek : SeekFrom}
    (h : Sound D mcap R ⟨s, cursor, some (.seekRequest seek), k⟩) :
    Sound D mcap R ⟨s, cursor, none, k⟩ := by
  obtain ⟨hb, hstate⟩ := h
  refine ⟨hb, ?_⟩
  have hasks : Asks none := fun m hm => by cases hm
  unfold InState at hstate ⊢
  simp only at hstate ⊢
  cases hst : s.state with
  | seekingToFooter =>
    rw [hst] at hstate
    exact ⟨hstate.1, hstate.2.1, hasks⟩
  | readingFooter loaded =>
    rw [hst] at hstate
    exact absurd rfl (hstate.2.2.2.2 seek)
  | seekingToSummary summaryStart =>
    rw [hst] at hstate
    exact ⟨hstate.1, hstate.2.1, hstate.2.2.1, hasks⟩
  | readingSummary summaryStart reader channeler =>
    rw [hst] at hstate
    obtain ⟨-, -, evs, fin, -, hobs⟩ := hstate
    exact hobs.elim

/-! ## Runs -/

/-- Whatever is sound is settled, if fewer unexpected seeks are still to come. -/
def SettledBelow (D : Decompressor δ) (mcap : Bytes) (early : Bool)
    (R : Res McapError (Option Summary)) (k : Nat) : Prop :=
  ∀ d : SummaryDriver δ, d.extra < k → Sound D mcap R d → Settles D mcap early R d

variable (hk : SettledBelow D mcap early R k)
include hk

theorem strays_settle (h : Sound D mcap R ⟨s, cursor, pending, k⟩) :
    ∀ d', Strays early ⟨s, cursor, pending, k⟩ d' → Settles D mcap early R d' := by
  rintro d' hs
  cases hs with
  | seek _ => exact hk _ (Nat.lt_succ_self _) (h.seek _ _)

theorem Sound.asks (h : Sound D mcap R ⟨s, cursor, none, k⟩)
    (out : Next (SummaryReader δ) (Except McapError SummaryReadEvent)) (N : Nat)
    (hnext : ∀ fuel, N ≤ fuel → s.nextEvent D (fuel + 1) = out)
    (hout : Resolves D mcap early R cursor k out) : Settles D mcap early R ⟨s, cursor, none, k⟩ :=
  settles_ask (comes_of_succ out N hnext) hout (strays_settle hk h)

theorem Sound.goes (h : Sound D mcap R ⟨s, cursor, none, k⟩) (N : Nat)
    (hnext : ∀ fuel, N ≤ fuel → s.nextEvent D (fuel + 1) = s'.nextEvent D fuel)
    (hset : Settles D mcap early R ⟨s', cursor, none, k⟩) :
    Settles D mcap early R ⟨s, cursor, none, k⟩ :=
  settles_of_goes s' ⟨N, hnext⟩ hset (strays_settle hk h)

omit hk in
theorem Sound.of_reading {reader : LinearReader δ} {channeler : ChannelAccumulator}
    {evs : List (UInt8 × Bytes)} {fin : Final}
    (hst : s.state = .readingSummary summaryStart reader channeler) (hb : Based mcap s cursor)
    (hpresent : s.summaryPresent = true) (hat : SummaryAt mcap summaryStart)
    (hR : R = summaryResult s.summary channeler evs fin)
    (hsees : NestedSees D mcap reader cursor evs fin pending) :
    Sound D mcap R ⟨s, cursor, pending, k⟩ := by
  refine ⟨hb, ?_⟩
  unfold InState
  simp only [hst]
  exact ⟨hpresent, hat, evs, fin, hR, hsees⟩

/-- **The summary section is read**, by induction on what is seen of the nested reader. -/
theorem settles_reading {reader : LinearReader δ} {evs : List (UInt8 × Bytes)} {fin : Final}
    (hobs : Observes D reader rest evs fin) {s : SummaryReader δ} {cursor : Nat}
    {channeler : ChannelAccumulator} (hrest : rest = mcap.drop cursor)
    (hst : s.state = .readingSummary summaryStart reader channeler) (hb : Based mcap s cursor)
    (hpresent : s.summaryPresent = true) (hat : SummaryAt mcap summaryStart)
    (hR : R = summaryResult s.summary channeler evs fin) :
    Settles D mcap early R ⟨s, cursor, none, k⟩ := by
  have h : Sound D mcap R ⟨s, cursor, none, k⟩ :=
    .of_reading hst hb hpresent hat hR (.of_observes hobs hrest)
  induction hobs generalizing s channeler cursor with
  | @record r r' rest opcode data evs fin hr hnext ih =>
    obtain ⟨N, hN⟩ := hr
    rw [summaryResult] at hR
    rcases hparse : parseRecord opcode data with record | e | _
    · rcases hcol : s.summary.collect channeler record with e | ⟨summary, channeler'⟩
      · refine h.asks hk (.item (.error e) { s with
          state := .readingSummary summaryStart r' channeler }) N (fun fuel hf => ?_) ?_
        · rw [SummaryReader.nextEvent]
          simp only [hst, hN (fuel + 1) (by omega), hparse, hcol]
        · rw [hparse] at hR
          simp only [hcol] at hR
          exact hR
      · rw [hparse] at hR
        simp only [hcol] at hR
        have hb' : Based mcap { s with
            summary, state := .readingSummary summaryStart r' channeler' } cursor :=
          ⟨hb.pos, hb.size, hb.limit, hb.eof⟩
        refine h.goes hk N (fun fuel hf => ?_) (ih hrest rfl hb' hpresent hR
          (.of_reading rfl hb' hpresent hat hR (.of_observes hnext hrest)))
        rw [SummaryReader.nextEvent]
        simp only [hst, hN (fuel + 1) (by omega), hparse, hcol]
    · refine h.asks hk (.item (.error e) { s with
        state := .readingSummary summaryStart r' channeler }) N (fun fuel hf => ?_) ?_
      · rw [SummaryReader.nextEvent]
        simp only [hst, hN (fuel + 1) (by omega), hparse]
      · rw [hparse] at hR
        exact hR
    · refine h.asks hk .panic N (fun fuel hf => ?_) ?_
      · rw [SummaryReader.nextEvent]
        simp only [hst, hN (fuel + 1) (by omega), hparse]
      · rw [hparse] at hR
        exact hR
  | @request r r' n rest evs fin hr hfed ih =>
    have hn := LinearReader.request_pos hr
    obtain ⟨N, hN⟩ := hr
    refine h.asks hk (.item (.ok (.readRequest n)) { s with
      state := .readingSummary summaryStart r' channeler }) N (fun fuel hf => ?_) ?_
    · rw [SummaryReader.nextEvent]
      simp only [hst, hN (fuel + 1) (by omega)]
    · subst hrest
      have hb' : Based mcap { s with state := .readingSummary summaryStart r' channeler } cursor :=
        ⟨hb.pos, hb.size, hb.limit, hb.eof⟩
      refine settles_read hn ?_ (strays_settle hk (.of_reading rfl hb' hpresent hat hR ⟨hn, hfed⟩))
      intro room piece rest s' hdrop hle hpiece hfeed
      obtain ⟨hb'', -, -⟩ := Based.feed hb' hdrop hpiece hfeed
      unfold SummaryReader.feed at hfeed
      simp only at hfeed
      split at hfeed
      · cases hfeed
      · rename_i reader' hreader
        cases hfeed
        have hrest' : rest = mcap.drop (cursor + piece.length) := by
          rw [← List.drop_drop, hdrop, List.drop_left]
        exact ih hdrop hpiece hreader hrest' rfl hb'' hpresent hR
          (.of_reading rfl hb'' hpresent hat hR (.of_observes (hfed hdrop hpiece hreader) hrest'))
  | @fail r r' rest e hr =>
    obtain ⟨N, hN⟩ := hr
    refine h.asks hk (.item (.error e) { s with
      state := .readingSummary summaryStart r' channeler }) N (fun fuel hf => ?_) hR
    rw [SummaryReader.nextEvent]
    simp only [hst, hN (fuel + 1) (by omega)]
  | @done r r' rest hr =>
    obtain ⟨N, hN⟩ := hr
    refine h.asks hk (.ended { s with
      summary := s.summary.complete channeler
      state := .readingSummary summaryStart r' channeler }) N (fun fuel hf => ?_) ?_
    · rw [SummaryReader.nextEvent]
      simp only [hst, hN (fuel + 1) (by omega)]
    · simp only [Resolves, SummaryReader.finish, hpresent, if_true]
      exact hR
  | @panic r rest hr =>
    obtain ⟨N, hN⟩ := hr
    refine h.asks hk .panic N (fun fuel hf => ?_) hR
    rw [SummaryReader.nextEvent]
    simp only [hst, hN (fuel + 1) (by omega)]

variable (hR : SummaryIs D mcap R)
include hR

theorem settles_seekingToSummary (hst : s.state = .seekingToSummary summaryStart)
    (hb : Based mcap s cursor) (hpresent : s.summaryPresent = true) (hsummary : s.summary = .empty)
    (hat : SummaryAt mcap summaryStart) : Settles D mcap early R ⟨s, cursor, none, k⟩ := by
  have hsound : ∀ {s : SummaryReader δ} {cursor pending}, s.state = .seekingToSummary summaryStart →
      Based mcap s cursor → s.summaryPresent = true → s.summary = .empty → Asks pending →
      Sound D mcap R ⟨s, cursor, pending, k⟩ := by
    intro s cursor pending hst hb hpresent hsummary hasks
    refine ⟨hb, ?_⟩
    unfold InState
    simp only [hst]
    exact ⟨hpresent, hsummary, hat, hasks⟩
  have hnone : Asks none := fun m hm => by cases hm
  -- at the right place the nested reader is made
  have hthere : ∀ {s : SummaryReader δ} {cursor : Nat}, s.state = .seekingToSummary summaryStart →
      Based mcap s cursor → s.summaryPresent = true → s.summary = .empty →
      cursor = summaryStart → Settles D mcap early R ⟨s, cursor, none, k⟩ := by
    intro s cursor hst hb hpresent hsummary hcursor
    have h := hsound hst hb hpresent hsummary hnone
    obtain ⟨footer, hfooter, h0, rfl⟩ := hat
    unfold SummaryIs at hR
    simp only [hfooter, if_neg h0] at hR
    obtain ⟨evs, fin, hR, hobs⟩ := hR
    have hpos : s.pos = footer.summaryStart.toNat := hb.pos.trans hcursor
    have hlimit : computeRecordLengthLimit s.pos s.fileSize s.recordLengthLimit =
        some (mcap.length - footer.summaryStart.toNat) := by
      rw [hb.size, hb.limit, hpos]
      rfl
    generalize hr : LinearReader.newWithOptions (SummaryReader.readerOptions
      (some (mcap.length - footer.summaryStart.toNat))) = reader at hobs
    have hnext : Settles D mcap early R ⟨{ s with
        state := .readingSummary footer.summaryStart.toNat reader .empty }, cursor, none, k⟩ :=
      settles_reading hk hobs (by rw [hcursor]) rfl ⟨hb.pos, hb.size, hb.limit, hb.eof⟩ hpresent
        ⟨footer, hfooter, h0, rfl⟩ (hsummary ▸ hR)
    refine h.goes hk 0 (fun fuel _ => ?_) hnext
    rw [SummaryReader.nextEvent]
    simp only [hst, if_pos hpos, hlimit, hr]
  by_cases hpos : s.pos = summaryStart
  · exact hthere hst hb hpresent hsummary (hb.pos.symm.trans hpos)
  refine (hsound hst hb hpresent hsummary hnone).asks hk
    (.item (.ok (.seekRequest (.start summaryStart))) s) 0 (fun fuel _ => ?_) ?_
  · rw [SummaryReader.nextEvent]
    simp only [hst, if_neg hpos]
  · obtain ⟨hp, hs, hl, he, hpresent', hst', hsummary'⟩ :=
      SummaryReader.notifySeeked_ne hb.size hpos
    refine settles_seek (hthere ?_ ⟨hp, hs, hl.trans hb.limit, fun h => ?_⟩
      (hpresent'.trans hpresent) ?_ rfl)
      (strays_settle hk (hsound hst hb hpresent hsummary fun m hm => by cases hm))
    · rw [SeekFrom.target, hst', hst]
      rfl
    · rw [SeekFrom.target, he] at h
      cases h
    · exact hsummary'.elim (fun h => h) fun h => h.1.trans hsummary

/-- **The footer is read**, by induction on the bytes still missing. -/
theorem settles_readingFooter {s : SummaryReader δ} {cursor loaded : Nat}
    (hst : s.state = .readingFooter loaded) (hb : Based mcap s cursor)
    (hpresent : s.summaryPresent = false) (hsummary : s.summary = .empty)
    (hl : FooterLoaded mcap s cursor loaded) : Settles D mcap early R ⟨s, cursor, none, k⟩ := by
  have hsound : ∀ {pending}, Asks pending → (∀ seek, pending ≠ some (.seekRequest seek)) →
      Sound D mcap R ⟨s, cursor, pending, k⟩ := by
    intro pending hasks hseek
    refine ⟨hb, ?_⟩
    unfold InState
    simp only [hst]
    exact ⟨hpresent, hsummary, hl, hasks, hseek⟩
  have h := @hsound none (fun _ hm => by cases hm) fun _ hm => by cases hm
  by_cases hall : loaded ≥ FOOTER_RECORD_AND_END_MAGIC
  · -- the footer is complete
    obtain rfl : loaded = FOOTER_RECORD_AND_END_MAGIC := Nat.le_antisymm hl.le hall
    have hfooter : SummaryReader.parseFooter s.footerBuf FOOTER_RECORD_AND_END_MAGIC =
        lastFooter mcap := by
      rw [lastFooter, if_neg (Nat.not_lt.mpr hl.size), SummaryReader.parseFooter_congr hl.buf]
    rcases hf : lastFooter mcap with e | footer
    · refine h.asks hk (.item (.error e) s) 0 (fun fuel _ => ?_) ?_
      · rw [SummaryReader.nextEvent]
        simp only [hst, if_pos hall, hfooter, hf]
      · rw [SummaryIs, hf] at hR
        exact hR
    by_cases h0 : footer.summaryStart = 0
    · refine h.asks hk (.ended s) 0 (fun fuel _ => ?_) ?_
      · rw [SummaryReader.nextEvent]
        simp only [hst, if_pos hall, hfooter, hf, if_pos h0]
      · simp only [SummaryIs, hf, if_pos h0] at hR
        simp only [Resolves, SummaryReader.finish, hpresent]
        exact hR
    · let next : SummaryReader δ :=
        { s with summaryPresent := true, state := .seekingToSummary footer.summaryStart.toNat }
      have hnext : Settles D mcap early R ⟨next, cursor, none, k⟩ :=
        settles_seekingToSummary hk hR rfl ⟨hb.pos, hb.size, hb.limit, hb.eof⟩ rfl hsummary
          ⟨footer, hf, h0, rfl⟩
      refine h.goes hk 0 (fun fuel _ => ?_) hnext
      rw [SummaryReader.nextEvent]
      simp only [hst, if_pos hall, hfooter, hf, if_neg h0]
      rfl
  have hsize := hl.size
  have hcursor := hl.cursor
  have heof : s.atEof = false := by
    cases heof : s.atEof with
    | false => rfl
    | true =>
      have hend := hb.eof heof
      omega
  refine h.asks hk (.item (.ok (.readRequest (FOOTER_RECORD_AND_END_MAGIC - loaded))) s) 0
    (fun fuel _ => ?_) ?_
  · rw [SummaryReader.nextEvent]
    simp only [hst, if_neg hall, heof]
    rfl
  refine settles_read (by omega) ?_
    (strays_settle hk (hsound (fun m hm => by cases hm; omega) fun _ hm => by cases hm))
  intro room piece rest s' hdrop hle hpiece hfeed
  have hne : 0 < piece.length := by
    rcases Nat.eq_zero_or_pos piece.length with h0 | hpos
    · have hnil := List.length_eq_zero_iff.mp h0
      have hlen := congrArg List.length hdrop
      rw [hnil, hpiece hnil, List.length_drop] at hlen
      simp only [List.append_nil, List.length_nil] at hlen
      omega
    · exact hpos
  obtain ⟨hst', hl'⟩ := hl.feed hst hdrop hle hfeed
  obtain ⟨hb', hpresent', hsummary'⟩ := Based.feed hb hdrop hpiece hfeed
  exact settles_readingFooter hst' hb' (hpresent'.trans hpresent) (hsummary'.trans hsummary) hl'
termination_by FOOTER_RECORD_AND_END_MAGIC - loaded

theorem settles_seekingToFooter (hst : s.state = .seekingToFooter) (hb : Based mcap s cursor)
    (hpresent : s.summaryPresent = false) (hsummary : s.summary = .empty) :
    Settles D mcap early R ⟨s, cursor, none, k⟩ := by
  have hsound : ∀ {s : SummaryReader δ} {cursor pending}, s.state = .seekingToFooter →
      Based mcap s cursor → s.summaryPresent = false → s.summary = .empty → Asks pending →
      Sound D mcap R ⟨s, cursor, pending, k⟩ := by
    intro s cursor pending hst hb hpresent hsummary hasks
    refine ⟨hb, ?_⟩
    unfold InState
    simp only [hst]
    exact ⟨hpresent, hsummary, hasks⟩
  have hnone : Asks none := fun m hm => by cases hm
  have h := hsound hst hb hpresent hsummary hnone
  by_cases hshort : mcap.length < FOOTER_RECORD_AND_END_MAGIC + 8
  · refine h.asks hk (.item (.error .unexpectedEof) s) 0 (fun fuel _ => ?_) ?_
    · rw [SummaryReader.nextEvent]
      simp only [hst, hb.size, if_pos hshort]
    · rw [SummaryIs, lastFooter, if_pos hshort] at hR
      exact hR
  have hthere : ∀ {s : SummaryReader δ} {cursor}, s.state = .seekingToFooter → Based mcap s cursor →
      s.summaryPresent = false → s.summary = .empty →
      cursor = mcap.length - FOOTER_RECORD_AND_END_MAGIC →
      Settles D mcap early R ⟨s, cursor, none, k⟩ := by
    intro s cursor hst hb hpresent hsummary hcursor
    have hnext : Settles D mcap early R ⟨{ s with state := .readingFooter 0 }, cursor, none, k⟩ :=
      settles_readingFooter hk hR rfl ⟨hb.pos, hb.size, hb.limit, hb.eof⟩ hpresent hsummary
        ⟨by omega, Nat.zero_le _, hcursor, rfl, Nat.zero_le _⟩
    refine (hsound hst hb hpresent hsummary hnone).goes hk 0 (fun fuel _ => ?_) hnext
    rw [SummaryReader.nextEvent]
    simp only [hst, hb.size, if_neg hshort, if_pos (hb.pos.trans hcursor)]
  by_cases hpos : s.pos = mcap.length - FOOTER_RECORD_AND_END_MAGIC
  · exact hthere hst hb hpresent hsummary (hb.pos.symm.trans hpos)
  refine h.asks hk (.item (.ok (.seekRequest
    (.start (mcap.length - FOOTER_RECORD_AND_END_MAGIC)))) s) 0 (fun fuel _ => ?_) ?_
  · rw [SummaryReader.nextEvent]
    simp only [hst, hb.size, if_neg hshort, if_neg hpos]
  · obtain ⟨hp, hs, hl, he, hpresent', hst', hsummary'⟩ :=
      SummaryReader.notifySeeked_ne hb.size hpos
    refine settles_seek (hthere ?_ ⟨hp, hs, hl.trans hb.limit, fun h => ?_⟩
      (hpresent'.trans hpresent) ?_ rfl)
      (strays_settle hk (hsound hst hb hpresent hsummary fun m hm => by cases hm))
    · rw [SeekFrom.target, hst', hst]
      rfl
    · rw [SeekFrom.target, he] at h
      cases h
    · exact hsummary'.elim (fun h => h) fun h => h.1.trans hsummary

theorem settles_none (h : Sound D mcap R ⟨s, cursor, none, k⟩) :
    Settles D mcap early R ⟨s, cursor, none, k⟩ := by
  have hstate := h.state
  unfold InState at hstate
  simp only at hstate
  cases hst : s.state with
  | seekingToFooter =>
    rw [hst] at hstate
    exact settles_seekingToFooter hk hR hst h.toBased hstate.1 hstate.2.1
  | readingFooter loaded =>
    rw [hst] at hstate
    exact settles_readingFooter hk hR hst h.toBased hstate.1 hstate.2.1 hstate.2.2.1
  | seekingToSummary summaryStart =>
    rw [hst] at hstate
    exact settles_seekingToSummary hk hR hst h.toBased hstate.1 hstate.2.1 hstate.2.2.1
  | readingSummary summaryStart reader channeler =>
    rw [hst] at hstate
    obtain ⟨hpresent, hat, evs, fin, hres, hobs⟩ := hstate
    exact settles_reading hk hobs rfl hst h.toBased hpresent hat hres

end

theorem Sound.read_pos {s : SummaryReader δ} {cursor n k : Nat}
    (h : Sound D mcap R ⟨s, cursor, some (.readRequest n), k⟩) : 0 < n := by
  have hstate := h.state
  unfold InState at hstate
  simp only at hstate
  cases hst : s.state with
  | seekingToFooter =>
    rw [hst] at hstate
    exact hstate.2.2 n rfl
  | readingFooter loaded =>
    rw [hst] at hstate
    exact hstate.2.2.2.1 n rfl
  | seekingToSummary summaryStart =>
    rw [hst] at hstate
    exact hstate.2.2.2 n rfl
  | readingSummary summaryStart reader channeler =>
    rw [hst] at hstate
    obtain ⟨-, -, evs, fin, -, hn, -⟩ := hstate
    exact hn

/-- **The run lemma**: from a sound state every driver comes to what the file says, by induction
on the unexpected seeks still to come. -/
theorem settles_of_sound (hR : SummaryIs D mcap R) {d : SummaryDriver δ} (h : Sound D mcap R d) :
    Settles D mcap early R d := by
  induction hn : d.extra using Nat.strong_induction_on generalizing d with
  | _ k ih =>
    subst hn
    have hk : SettledBelow D mcap early R d.extra := fun d' hlt hs => ih d'.extra hlt hs rfl
    obtain ⟨s, cursor, pending, k⟩ := d
    match pending, h with
    | none, h => exact settles_none hk hR h
    | some (.seekRequest seek), h =>
      exact settles_seek (settles_none hk hR (h.seek _ k).forget) (strays_settle hk h)
    | some (.readRequest n), h =>
      refine settles_read h.read_pos ?_ (strays_settle hk h)
      intro room piece rest s' hdrop hle hpiece hfeed
      exact settles_none hk hR (h.read hdrop hle hpiece hfeed)

end Mcap
