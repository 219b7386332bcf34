import Mcap.GoSafety
import Mcap.CountedCollections

/-! # Byte-counted collections in the Go library

The converse of reading back: what a parser returns tells which bytes it has read.  An accessor
that succeeds leaves `Rest` behind, and a loop that returns has read a row of entries, at whose ends
its condition held, up to the one where it stops (`Halts`).

The loops go on in front of the announced end, so that the last entry may go over it; and
`getPrefixedMap` and `ParseMessageIndex` compute that end in 32 bits, so that one past `2 ^ 32` is
taken to lie in front of the entries, of which none is read.  `collections_exactly_iff` says when the
entries that are read are exactly the announced bytes.
-/
namespace Mcap
namespace Go

/-! ## What was read -/

section
variable {α β : Type} {buf bs : Bytes} {offset offset' : Nat}

theorem wrap_eq_ok {context : String} {x : Res Error α} {a : α} :
    wrap context x = .ok a ↔ x = .ok a := by
  cases x with
  | ok a' => exact Iff.rfl
  | err e | panic =>
    constructor
    · rintro ⟨⟩
    · rintro ⟨⟩

theorem bind_wrap_eq_ok {context : String} {x : Res Error α} {f : α → Res Error β} {b : β}
    (h : (wrap context x >>= f) = .ok b) : ∃ a, x = .ok a ∧ f a = .ok b := by
  obtain ⟨a, hx, hf⟩ := Res.bind_eq_ok.mp h
  exact ⟨a, wrap_eq_ok.mp hx, hf⟩

theorem Rest.of_drop (h : Rest buf offset bs) {n : Nat} {rest : Bytes}
    (hn : Rest (buf.drop offset) n rest) : Rest buf (offset + n) rest where
  drop := by rw [← List.drop_drop, hn.drop]
  le := by
    have hle := hn.le
    have hle' := h.le
    rw [List.length_drop] at hle
    omega

theorem rest_of_getUint {w n : Nat} (h : getUint w buf offset = .ok (n, offset')) :
    ∃ rest, Rest buf offset (le w n ++ rest) ∧ offset' = offset + w ∧ n < 256 ^ w := by
  unfold getUint at h
  by_cases hshort : buf.length < offset + w
  · rw [if_pos hshort] at h
    cases h
  · rw [if_neg hshort] at h
    cases h
    have hlen : ((buf.drop offset).take w).length = w := by
      rw [List.length_take, List.length_drop]
      omega
    have hle := le_ofLe ((buf.drop offset).take w)
    have hlt := ofLe_lt ((buf.drop offset).take w)
    rw [hlen] at hle hlt
    refine ⟨(buf.drop offset).drop w, ⟨?_, by omega⟩, rfl, hlt⟩
    rw [hle, List.take_append_drop]

theorem rest_of_getUint32 {n : UInt32} (h : getUint32 buf offset = .ok (n, offset')) :
    ∃ rest, Rest buf offset (u32 n ++ rest) ∧ offset' = offset + 4 := by
  obtain ⟨⟨x, o⟩, hx, h⟩ := Res.bind_eq_ok.mp h
  cases h
  obtain ⟨rest, hrest, ho, hlt⟩ := rest_of_getUint hx
  refine ⟨rest, ?_, ho⟩
  rwa [Mcap.u32, UInt32.toNat_ofNat_of_lt' hlt]

theorem field_getUint16 {context : String} {f : UInt16 × Nat → Res Error β} {b : β}
    (h : (wrap context (getUint16 buf offset) >>= f) = .ok b) :
    ∃ n rest, Rest buf offset (u16 n ++ rest) ∧ f (n, offset + 2) = .ok b := by
  obtain ⟨⟨n, o⟩, hn, h⟩ := bind_wrap_eq_ok h
  obtain ⟨⟨x, o⟩, hx, hn⟩ := Res.bind_eq_ok.mp hn
  cases hn
  obtain ⟨rest, hrest, rfl, hlt⟩ := rest_of_getUint hx
  refine ⟨_, rest, ?_, h⟩
  rwa [Mcap.u16, UInt16.toNat_ofNat_of_lt' hlt]

theorem field_getUint32 {context : String} {f : UInt32 × Nat → Res Error β} {b : β}
    (h : (wrap context (getUint32 buf offset) >>= f) = .ok b) :
    ∃ n rest, Rest buf offset (u32 n ++ rest) ∧ f (n, offset + 4) = .ok b := by
  obtain ⟨⟨n, o⟩, hn, h⟩ := bind_wrap_eq_ok h
  obtain ⟨rest, hrest, rfl⟩ := rest_of_getUint32 hn
  exact ⟨n, rest, hrest, h⟩

theorem field_getUint64 {context : String} {f : UInt64 × Nat → Res Error β} {b : β}
    (h : (wrap context (getUint64 buf offset) >>= f) = .ok b) :
    ∃ n rest, Rest buf offset (u64 n ++ rest) ∧ f (n, offset + 8) = .ok b := by
  obtain ⟨⟨n, o⟩, hn, h⟩ := bind_wrap_eq_ok h
  obtain ⟨⟨x, o⟩, hx, hn⟩ := Res.bind_eq_ok.mp hn
  cases hn
  obtain ⟨rest, hrest, rfl, hlt⟩ := rest_of_getUint hx
  refine ⟨_, rest, ?_, h⟩
  rwa [Mcap.u64, UInt64.toNat_ofNat_of_lt' hlt]

theorem rest_of_getPrefixedString {s : Bytes}
    (h : getPrefixedString buf offset = .ok (s, offset')) :
    ∃ rest, Rest buf offset (putPrefixedString s ++ rest) ∧ offset' = offset + (4 + s.length) ∧
      s.length < 2 ^ 32 := by
  unfold getPrefixedString at h
  split at h
  · cases h
  · split at h
    · cases h
    · rename_i hle hfour
      rw [List.length_drop] at hfour
      simp only at h
      split at h
      · cases h
      · rename_i hlong
        cases h
        rw [List.length_drop] at hlong
        have hlen : ((buf.drop offset).take 4).length = 4 := by
          rw [List.length_take, List.length_drop]
          omega
        have hle4 := le_ofLe ((buf.drop offset).take 4)
        have hlt := ofLe_lt ((buf.drop offset).take 4)
        rw [hlen] at hle4 hlt
        generalize ofLe ((buf.drop offset).take 4) = n at hle4 hlt hlong
        have hs : ((buf.drop (offset + 4)).take n).length = n := by
          rw [List.length_take, List.length_drop]
          omega
        refine ⟨(buf.drop (offset + 4)).drop n, ⟨?_, by omega⟩, by rw [hs, Nat.add_assoc], by
          rwa [hs]⟩
        rw [putPrefixedString, hs, hle4, List.append_assoc, List.take_append_drop, ← List.drop_drop,
          List.take_append_drop]

end

/-! ## Loops -/

/-- **The loop stops behind these entries**: its condition holds in front of each of them. -/
def Halts (more : Nat → Bool) : Nat → List Bytes → Prop
  | offset, [] => more offset = false
  | offset, e :: es => more offset = true ∧ Halts more (offset + e.length) es

section
variable {α β : Type} {more : Nat → Bool} {step : β → Nat → Res Error (β × Nat)} (enc : α → Bytes)
  (next : β → α → β) (valid : α → Prop) {buf : Bytes} {offset : Nat}

/-- **What a loop reads** is a row of entries, up to where it stops. -/
theorem loop_reads (hstep : ∀ b b' offset offset', step b offset = .ok (b', offset') →
      ∃ e rest, valid e ∧ b' = next b e ∧ Rest buf offset (enc e ++ rest) ∧
        offset' = offset + (enc e).length) (hne : ∀ e, 0 < (enc e).length) {fuel offset' : Nat}
    {b b' : β} (hfuel : buf.length - offset < fuel) (hle : offset ≤ buf.length)
    (h : loop more step fuel b offset = .ok (b', offset')) :
    ∃ (es : List α) (rest : Bytes), (∀ e ∈ es, valid e) ∧ b' = es.foldl next b ∧
      Rest buf offset ((es.map enc).flatten ++ rest) ∧
        offset' = offset + (es.map enc).flatten.length ∧ Halts more offset (es.map enc) := by
  induction fuel generalizing b offset with
  | zero => omega
  | succ fuel ih =>
    unfold loop at h
    cases hmore : more offset with
    | false =>
      rw [hmore, if_neg Bool.false_ne_true] at h
      cases h
      exact ⟨[], _, List.forall_mem_nil _, rfl, ⟨rfl, hle⟩, rfl, hmore⟩
    | true =>
      rw [hmore, if_pos rfl] at h
      obtain ⟨⟨b₁, offset₁⟩, hb, h⟩ := Res.bind_eq_ok.mp h
      obtain ⟨e, rest, he, rfl, hrest, rfl⟩ := hstep _ _ _ _ hb
      have hpos := hne e
      have htail := hrest.skip rfl
      have hle₁ := htail.le
      obtain ⟨es, rest', hes, hb', hrest', hoffset, hhalts⟩ := ih (by omega) hle₁ h
      refine ⟨e :: es, rest', ?_, hb', ⟨?_, hle⟩, ?_, hmore, hhalts⟩
      · exact fun x hx => (List.mem_cons.mp hx).elim (fun hx => hx ▸ he) (hes x)
      · rw [hrest.drop, ← htail.drop, hrest'.drop, List.map_cons, List.flatten_cons,
          List.append_assoc]
      · rw [hoffset, List.map_cons, List.flatten_cons, List.length_append, Nat.add_assoc]

theorem Halts.eq_nil {es : List Bytes} (h : Halts more offset es)
    (hmore : more offset = false) : es = [] := by
  cases es with
  | nil => rfl
  | cons e es => exact absurd (h.1.symm.trans hmore) (by decide)

/-- **A loop reads the announced bytes** if their number ends an entry, and its condition is that they
are not all read. -/
theorem Halts.length_eq {entry : List Field} {es : List Bytes} (hes : ∀ e ∈ es, Spans entry e)
    {n : Nat} (hmore : ∀ k ≤ n, more (offset + k) = decide (k < n)) (h : Halts more offset es)
    {rest : Bytes} (hrow : Row entry (es.flatten ++ rest) n) :
    es.flatten.length = n := by
  induction es generalizing offset n with
  | nil =>
    have hzero := hmore 0 (Nat.zero_le n)
    rw [Nat.add_zero, show more offset = false from h] at hzero
    have hn : ¬ 0 < n := of_decide_eq_false hzero.symm
    rw [List.flatten_nil, List.length_nil]
    omega
  | cons e es ih =>
    obtain ⟨htrue, hrest⟩ := h
    have hzero := hmore 0 (Nat.zero_le n)
    rw [Nat.add_zero, htrue] at hzero
    have hn : 0 < n := of_decide_eq_true hzero.symm
    have hsize : rowSize entry ((e :: es).flatten ++ rest) = e.length := by
      rw [List.flatten_cons, List.append_assoc]
      exact hes e List.mem_cons_self _
    have hdrop : ((e :: es).flatten ++ rest).drop e.length = es.flatten ++ rest := by
      rw [List.flatten_cons, List.append_assoc, List.drop_left]
    obtain ⟨m, hm, rfl⟩ : ∃ m, Row entry (es.flatten ++ rest) m ∧ n = e.length + m := by
      generalize (e :: es).flatten ++ rest = bytes at hrow hsize hdrop
      cases hrow with
      | nil => omega
      | cons hrow => exact ⟨_, by rwa [hsize, hdrop] at hrow, by rw [hsize]⟩
    have htail := ih (fun x hx => hes x (List.mem_cons_of_mem _ hx)) (n := m) (fun k hk => by
      rw [Nat.add_assoc, hmore _ (by omega)]
      exact decide_eq_decide.mpr (by omega)) hrest hm
    rw [List.flatten_cons, List.length_append, htail]

end

/-! ## Entries -/

section
variable {buf : Bytes} {offset offset' : Nat}

/-- A key or a value fits into its length field. -/
def Short (e : Bytes × Bytes) : Prop := e.1.length < 2 ^ 32 ∧ e.2.length < 2 ^ 32

theorem spans_prefixedString {s : Bytes} (hs : s.length < 2 ^ 32) {fs : List Field} {enc : Bytes}
    (h : Spans fs enc) : Spans (.string :: fs) (putPrefixedString s ++ enc) :=
  spans_cons (size_string hs rfl) h

theorem spans_mapEntry {e : Bytes × Bytes} (h : Short e) : Spans [.string, .string] (mapEntry e) := by
  have hspans := spans_prefixedString h.1 (spans_prefixedString h.2 spans_nil)
  rwa [List.append_nil] at hspans

theorem spans_messageIndexEntry (e : MessageIndexEntry) : Spans [.fixed 8, .fixed 8] e.bytes := by
  have h := spans_fixed (length_u64 e.timestamp) (spans_fixed (length_u64 e.offset) spans_nil)
  rwa [List.append_nil] at h

theorem reads_mapEntry {m m' : BTreeMap Bytes Bytes} {data : Bytes}
    (h : (do
      let (key, inset) ← wrap "failed to read map key" (getPrefixedString data offset)
      let (value, inset) ← wrap "failed to read map value" (getPrefixedString data inset)
      pure (m.insert key value, inset) : Res Error _) = .ok (m', offset')) :
    ∃ e rest, Short e ∧ m' = m.insert e.1 e.2 ∧ Rest data offset (mapEntry e ++ rest) ∧
      offset' = offset + (mapEntry e).length := by
  obtain ⟨⟨key, o⟩, hkey, h⟩ := bind_wrap_eq_ok h
  obtain ⟨⟨value, o'⟩, hvalue, h⟩ := bind_wrap_eq_ok h
  cases h
  obtain ⟨rest, hrest, rfl, hk⟩ := rest_of_getPrefixedString hkey
  obtain ⟨rest', hrest', rfl, hv⟩ := rest_of_getPrefixedString hvalue
  have hskip := hrest.prefixedString
  refine ⟨(key, value), rest', ⟨hk, hv⟩, rfl, ⟨?_, hrest.le⟩, ?_⟩
  · rw [hrest.drop, ← hskip.drop, hrest'.drop, mapEntry, List.append_assoc]
  · rw [length_mapEntry]
    show offset + (4 + key.length) + (4 + value.length) = offset + (8 + key.length + value.length)
    omega

theorem reads_channelEntry {ctxKey ctxValue : String} {m m' : BTreeMap UInt16 UInt64}
    (h : (do
      let (channelID, offset) ← wrap ctxKey (getUint16 buf offset)
      let (value, offset) ← wrap ctxValue (getUint64 buf offset)
      pure (m.insert channelID value, offset) : Res Error _) = .ok (m', offset')) :
    ∃ e rest, True ∧ m' = m.insert e.1 e.2 ∧ Rest buf offset (intEntry e ++ rest) ∧
      offset' = offset + (intEntry e).length := by
  obtain ⟨channelID, rest, hrest, h⟩ := field_getUint16 h
  obtain ⟨value, rest', hrest', h⟩ := field_getUint64 h
  cases h
  refine ⟨(channelID, value), rest', trivial, rfl, ⟨?_, hrest.le⟩, by rw [length_intEntry]⟩
  rw [hrest.drop, ← hrest.u16.drop, hrest'.drop]
  exact (List.append_assoc (u16 channelID) (u64 value) rest').symm

theorem reads_messageIndexEntry {records records' : List MessageIndexEntry}
    (h : (do
      let (timestamp, offset) ← wrap "failed to read message index entry stamp"
        (getUint64 buf offset)
      let (value, offset) ← wrap "failed to read message index entry value" (getUint64 buf offset)
      pure (records ++ [⟨timestamp, value⟩], offset) : Res Error _) = .ok (records', offset')) :
    ∃ e rest, True ∧ records' = records ++ [e] ∧
      Rest buf offset (MessageIndexEntry.bytes e ++ rest) ∧
      offset' = offset + (MessageIndexEntry.bytes e).length := by
  obtain ⟨timestamp, rest, hrest, h⟩ := field_getUint64 h
  obtain ⟨value, rest', hrest', h⟩ := field_getUint64 h
  cases h
  refine ⟨⟨timestamp, value⟩, rest', trivial, rfl, ⟨?_, hrest.le⟩, by
    rw [MessageIndexEntry.length_bytes]⟩
  rw [hrest.drop, ← hrest.u64.drop, hrest'.drop]
  exact (List.append_assoc (u64 timestamp) (u64 value) rest').symm

end

/-! ## Exactly the announced bytes -/

/-- The number of bytes that the length field at an offset announces. -/
def announced (buf : Bytes) (offset : Nat) : Nat := ofLe ((buf.drop offset).take 4)

/-- The announced bytes are these entries. -/
structure Holds (buf : Bytes) (offset : Nat) (entries : List Bytes) : Prop where
  behind : ∃ rest, Rest buf (offset + 4) (entries.flatten ++ rest)
  length : entries.flatten.length = announced buf offset

/-- **A map of strings is the entries in exactly the announced bytes.** -/
def MapExact (buf : Bytes) (offset : Nat) (m : BTreeMap Bytes Bytes) : Prop :=
  ∃ es : List (Bytes × Bytes), Holds buf offset (es.map mapEntry) ∧ (∀ e ∈ es, Short e) ∧
    m = BTreeMap.insertAll ∅ es

/-- **A map from channel ids is the entries in exactly the announced bytes.** -/
def ChannelMapExact (buf : Bytes) (offset : Nat) (m : BTreeMap UInt16 UInt64) : Prop :=
  ∃ es : List (UInt16 × UInt64), Holds buf offset (es.map intEntry) ∧ m = BTreeMap.insertAll ∅ es

/-- **The records of a message index are the entries in exactly the announced bytes.** -/
def RecordsExact (buf : Bytes) (offset : Nat) (records : List MessageIndexEntry) : Prop :=
  Holds buf offset (records.map MessageIndexEntry.bytes)

/-- The end of the announced bytes is not wrapped to one in front of them. -/
def EndFits (buf : Bytes) (offset : Nat) : Prop :=
  (offset + 4) % 2 ^ 32 + announced buf offset < 2 ^ 32

instance (buf : Bytes) (offset : Nat) : Decidable (EndFits buf offset) :=
  inferInstanceAs (Decidable (_ < _))

section
variable {buf : Bytes} {offset : Nat} {entry : List Field}

theorem announced_lt (buf : Bytes) (offset : Nat) : announced buf offset < 2 ^ 32 :=
  ofLe_take_lt _ 4

theorem row_flatten {entries : List Bytes} (hentries : ∀ e ∈ entries, Spans entry e)
    (rest : Bytes) :
    Row entry (entries.flatten ++ rest) entries.flatten.length := by
  induction entries with
  | nil => exact .nil _
  | cons e entries ih =>
    have hsize : rowSize entry ((e :: entries).flatten ++ rest) = e.length := by
      rw [List.flatten_cons, List.append_assoc]
      exact hentries e List.mem_cons_self _
    have hdrop : ((e :: entries).flatten ++ rest).drop e.length = entries.flatten ++ rest := by
      rw [List.flatten_cons, List.append_assoc, List.drop_left]
    have hrow := ih fun x hx => hentries x (List.mem_cons_of_mem _ hx)
    rw [← hdrop, ← hsize] at hrow
    have hcons := Row.cons hrow
    rwa [hsize, ← List.length_append, ← List.flatten_cons] at hcons

theorem Holds.row {entries : List Bytes} (h : Holds buf offset entries)
    (hentries : ∀ e ∈ entries, Spans entry e) :
    Row entry (buf.drop (offset + 4)) (announced buf offset) := by
  obtain ⟨⟨rest, hrest⟩, hlen⟩ := h
  rw [hrest.drop, ← hlen]
  exact row_flatten hentries rest

theorem announced_of_getUint32 {n : UInt32} {start : Nat}
    (h : getUint32 buf offset = .ok (n, start)) :
    n.toNat = announced buf offset ∧ start = offset + 4 ∧ offset + 4 ≤ buf.length := by
  obtain ⟨rest, hrest, rfl⟩ := rest_of_getUint32 h
  refine ⟨?_, rfl, hrest.u32.le⟩
  unfold announced
  rw [hrest.drop, List.take_left' (length_u32 n), Mcap.u32, ofLe_le_of_lt n.toNat_lt]

theorem more_of_endFits {n : UInt32} (hn : n.toNat = announced buf offset)
    (h : EndFits buf offset) {k : Nat} (hk : k ≤ announced buf offset) :
    decide (UInt32.ofNat (offset + 4 + k) < UInt32.ofNat (offset + 4) + n) =
      decide (k < announced buf offset) := by
  unfold EndFits at h
  rw [decide_eq_decide, UInt32.lt_iff_toNat_lt, UInt32.toNat_add, UInt32.toNat_ofNat',
    UInt32.toNat_ofNat', hn]
  omega

theorem not_more_of_wrapped {n : UInt32} (hn : n.toNat = announced buf offset)
    (h : ¬ EndFits buf offset) :
    decide (UInt32.ofNat (offset + 4) < UInt32.ofNat (offset + 4) + n) = false := by
  have hlt := announced_lt buf offset
  unfold EndFits at h
  rw [decide_eq_false_iff_not, UInt32.lt_iff_toNat_lt, UInt32.toNat_add, UInt32.toNat_ofNat', hn]
  omega

theorem insertAll_eq_empty {K V : Type} [Ord K] [Std.TransOrd K] [Std.LawfulEqOrd K] [DecidableEq K]
    {es : List (K × V)} (h : BTreeMap.insertAll (∅ : BTreeMap K V) es = ∅) : es = [] := by
  rcases List.eq_nil_or_concat es with hnil | ⟨before, e, rfl⟩
  · exact hnil
  · unfold BTreeMap.insertAll at h
    rw [List.concat_eq_append, List.foldl_append] at h
    exact absurd h Std.ExtTreeMap.insert_ne_empty

/-- **A map of strings is read exactly** if and only if the announced length ends an entry, and the
end is not wrapped. -/
theorem mapExact_iff {m : BTreeMap Bytes Bytes} {o : Nat}
    (h : getPrefixedMap buf offset = .ok (m, o)) :
    MapExact buf offset m ↔
      Row [.string, .string] (buf.drop (offset + 4)) (announced buf offset) ∧ EndFits buf offset := by
  unfold getPrefixedMap at h
  obtain ⟨⟨n, start⟩, hn, h⟩ := bind_wrap_eq_ok h
  obtain ⟨hnat, rfl, hle⟩ := announced_of_getUint32 hn
  obtain ⟨⟨m', inset⟩, hloop, h⟩ := Res.bind_eq_ok.mp h
  cases h
  have hrest : Rest buf (offset + 4) (buf.drop (offset + 4)) := ⟨rfl, hle⟩
  obtain ⟨es, rest, hes, rfl, hread, -, hhalts⟩ :=
    loop_reads mapEntry (fun (m : BTreeMap Bytes Bytes) e => m.insert e.1 e.2)
      Short (fun _ _ _ _ h => reads_mapEntry h)
      (fun e => by rw [length_mapEntry]; omega)
      (by rw [List.length_drop]; omega) (Nat.zero_le _) hloop
  have hspans : ∀ e ∈ es.map mapEntry, Spans [.string, .string] e := by
    intro enc henc
    obtain ⟨e, he, rfl⟩ := List.mem_map.mp henc
    exact spans_mapEntry (hes e he)
  constructor
  · rintro ⟨es', hholds, hes', heq⟩
    refine ⟨hholds.row fun enc henc => ?_, ?_⟩
    · obtain ⟨e, he, rfl⟩ := List.mem_map.mp henc
      exact spans_mapEntry (hes' e he)
    · -- if the end is wrapped, the map is empty, but some bytes are announced
      by_contra hwrapped
      have hnil : es = [] := List.map_eq_nil_iff.mp
        (hhalts.eq_nil (not_more_of_wrapped hnat hwrapped))
      rw [hnil] at heq
      have hnil' := insertAll_eq_empty heq.symm
      have hlen := hholds.length
      rw [hnil'] at hlen
      have hzero : announced buf offset = 0 := hlen.symm
      unfold EndFits at hwrapped
      omega
  · rintro ⟨hrow, hfits⟩
    have hbytes := hread.drop
    rw [List.drop_zero] at hbytes
    rw [hbytes] at hrow
    have hlen := hhalts.length_eq hspans (fun k hk => by
      rw [Nat.zero_add]
      exact more_of_endFits hnat hfits hk) hrow
    exact ⟨es, ⟨⟨rest, hbytes, hle⟩, hlen⟩, hes, rfl⟩

theorem reads_getChannelEntries {ctxKey ctxValue : String} {data : Bytes} {start n o : Nat}
    {m : BTreeMap UInt16 UInt64} (hle : start ≤ data.length)
    (h : getChannelEntries ctxKey ctxValue data start n = .ok (m, o)) :
    ∃ (es : List (UInt16 × UInt64)) (rest : Bytes), m = BTreeMap.insertAll ∅ es ∧
      Rest data start ((es.map intEntry).flatten ++ rest) ∧
      o = start + (es.map intEntry).flatten.length ∧
      Halts (fun offset => offset < start + n) start (es.map intEntry) := by
  obtain ⟨es, rest, -, hm, hread, ho, hhalts⟩ :=
    loop_reads intEntry (fun (m : BTreeMap UInt16 UInt64) e => m.insert e.1 e.2)
      (fun _ => True) (fun _ _ _ _ h => reads_channelEntry h)
      (fun e => by rw [length_intEntry]; omega) (by omega) hle h
  exact ⟨es, rest, hm, hread, ho, hhalts⟩

/-- **A map from channel ids is read exactly** if and only if the announced length ends an entry. -/
theorem channelMapExact_iff {es : List (UInt16 × UInt64)} {rest : Bytes} {more : Nat → Bool}
    {start : Nat} (hread : Rest buf (offset + 4) ((es.map intEntry).flatten ++ rest))
    (hmore : ∀ k ≤ announced buf offset, more (start + k) = decide (k < announced buf offset))
    (hhalts : Halts more start (es.map intEntry)) :
    ChannelMapExact buf offset (BTreeMap.insertAll ∅ es) ↔
      Row [.fixed 2, .fixed 8] (buf.drop (offset + 4)) (announced buf offset) := by
  have hspans : ∀ es : List (UInt16 × UInt64), ∀ enc ∈ es.map intEntry,
      Spans [.fixed 2, .fixed 8] enc := by
    intro es enc henc
    obtain ⟨e, -, rfl⟩ := List.mem_map.mp henc
    exact spans_intEntry e
  constructor
  · rintro ⟨es', hholds, -⟩
    exact hholds.row (hspans es')
  · intro hrow
    rw [hread.drop] at hrow
    exact ⟨es, ⟨⟨rest, hread⟩, hhalts.length_eq (hspans es) hmore hrow⟩, rfl⟩

/-! ## The parsers -/

/-- Where the collection of a record is: behind the fields before it. -/
def collectionAt (opcode : UInt8) (body : Bytes) : Nat :=
  rowSize (((collectionFields opcode).map Prod.fst).getD []) body

theorem endsEntry_iff {opcode : UInt8} {before : List Field}
    (h : collectionFields opcode = some (before, entry)) (body : Bytes) :
    EndsEntry opcode body ↔ Row entry (body.drop (collectionAt opcode body + 4))
      (announced body (collectionAt opcode body)) := by
  have hat : collectionAt opcode body = rowSize before body := by
    unfold collectionAt
    rw [h]
    rfl
  rw [hat]
  constructor
  · rintro ⟨before', entry', h', hrow⟩
    rw [h] at h'
    cases h'
    exact hrow
  · exact fun hrow => ⟨before, entry, h, hrow⟩

theorem Rest.unique {bs bs' : Bytes} (h : Rest buf offset bs) (h' : Rest buf offset bs') :
    bs = bs' := h.drop.symm.trans h'.drop

theorem parseChannel_exactly_iff {c : Channel} (h : parseChannel buf = .ok c) :
    MapExact buf (collectionAt op.CHANNEL buf) c.metadata ↔
      EndsEntry op.CHANNEL buf ∧ EndFits buf (collectionAt op.CHANNEL buf) := by
  unfold parseChannel at h
  obtain ⟨id, r₁, hr₁, h⟩ := field_getUint16 h
  obtain ⟨schemaID, r₂, hr₂, h⟩ := field_getUint16 h
  obtain ⟨⟨topic, o⟩, htopic, h⟩ := bind_wrap_eq_ok h
  obtain ⟨r₃, hr₃, rfl, ht⟩ := rest_of_getPrefixedString htopic
  obtain ⟨⟨messageEncoding, o⟩, hencoding, h⟩ := bind_wrap_eq_ok h
  obtain ⟨r₄, hr₄, rfl, he⟩ := rest_of_getPrefixedString hencoding
  obtain ⟨⟨metadata, o⟩, hmetadata, h⟩ := bind_wrap_eq_ok h
  cases h
  have hbuf : buf = u16 id ++ (u16 schemaID ++ (putPrefixedString topic ++
      (putPrefixedString messageEncoding ++ []))) ++ r₄ := by
    have hwhole := (Rest.start buf).unique hr₁
    rw [hr₁.u16.unique hr₂, hr₂.u16.unique hr₃, hr₃.prefixedString.unique hr₄] at hwhole
    simpa only [List.append_assoc, List.nil_append, List.append_nil] using hwhole
  have hat : collectionAt op.CHANNEL buf =
      0 + 2 + 2 + (4 + topic.length) + (4 + messageEncoding.length) := by
    have hspans := spans_fixed (length_u16 id) (spans_fixed (length_u16 schemaID)
      (spans_prefixedString ht (spans_prefixedString he spans_nil)))
    have hsize := hspans r₄
    rw [← hbuf] at hsize
    refine Eq.trans hsize ?_
    simp only [List.length_append, length_u16, length_putPrefixedString, List.length_nil]
    omega
  rw [endsEntry_iff (show collectionFields op.CHANNEL = some (_, _) from rfl), hat]
  exact mapExact_iff hmetadata

theorem parseMetadata_exactly_iff {m : Metadata} (h : parseMetadata buf = .ok m) :
    MapExact buf (collectionAt op.METADATA buf) m.metadata ↔
      EndsEntry op.METADATA buf ∧ EndFits buf (collectionAt op.METADATA buf) := by
  unfold parseMetadata at h
  obtain ⟨⟨name, o⟩, hname, h⟩ := bind_wrap_eq_ok h
  obtain ⟨r, hr, rfl, hn⟩ := rest_of_getPrefixedString hname
  obtain ⟨⟨metadata, o⟩, hmetadata, h⟩ := bind_wrap_eq_ok h
  cases h
  have hat : collectionAt op.METADATA buf = 0 + (4 + name.length) := by
    have hsize := spans_prefixedString hn spans_nil r
    rw [List.append_nil, ← (Rest.start buf).unique hr] at hsize
    refine Eq.trans hsize ?_
    rw [length_putPrefixedString, Nat.zero_add]
  rw [endsEntry_iff (show collectionFields op.METADATA = some (_, _) from rfl), hat]
  exact mapExact_iff hmetadata

theorem parseMessageIndex_exactly_iff {i : MessageIndex} (h : parseMessageIndex buf = .ok i) :
    RecordsExact buf (collectionAt op.MESSAGE_INDEX buf) i.records ↔
      EndsEntry op.MESSAGE_INDEX buf := by
  unfold parseMessageIndex at h
  obtain ⟨id, r, hr, h⟩ := field_getUint16 h
  obtain ⟨⟨n, start⟩, hn, h⟩ := bind_wrap_eq_ok h
  obtain ⟨hnat, rfl, hle⟩ := announced_of_getUint32 hn
  obtain ⟨⟨records, o⟩, hloop, h⟩ := Res.bind_eq_ok.mp h
  cases h
  obtain ⟨es, rest, -, hes, hread, -, hhalts⟩ :=
    loop_reads MessageIndexEntry.bytes (fun records e => records ++ [e])
      (fun _ => True) (fun _ _ _ _ h => reads_messageIndexEntry h)
      (fun e => by rw [MessageIndexEntry.length_bytes]; omega) (by omega) hle hloop
  have hall : records = es := by
    rw [hes, List.foldl_append_eq_append, ← List.flatMap_def, List.flatMap_singleton']
    rfl
  subst hall
  have hspans : ∀ enc ∈ records.map MessageIndexEntry.bytes, Spans [.fixed 8, .fixed 8] enc := by
    intro enc henc
    obtain ⟨e, -, rfl⟩ := List.mem_map.mp henc
    exact spans_messageIndexEntry e
  have hat : collectionAt op.MESSAGE_INDEX buf = 0 + 2 := rfl
  rw [endsEntry_iff (show collectionFields op.MESSAGE_INDEX = some (_, _) from rfl), hat]
  constructor
  · exact fun hholds => hholds.row hspans
  · intro hrow
    -- a number of whole entries is not among the last six below `2 ^ 32`
    have hfits : EndFits buf (0 + 2) := by
      obtain ⟨k, hk⟩ := (row_fixed_iff (w := 16) (fun _ => rfl) _ _).mp hrow
      have hlt := announced_lt buf (0 + 2)
      unfold EndFits
      omega
    rw [hread.drop] at hrow
    exact ⟨⟨rest, hread⟩, hhalts.length_eq hspans (fun k hk => more_of_endFits hnat hfits hk) hrow⟩

theorem Halts.last {more : Nat → Bool} {offset : Nat} {es : List Bytes} (h : Halts more offset es) :
    more (offset + es.flatten.length) = false := by
  induction es generalizing offset with
  | nil => exact h
  | cons e es ih =>
    have hlast := ih h.2
    rwa [Nat.add_assoc, ← List.length_append, ← List.flatten_cons] at hlast

theorem parseChunkIndex_eq_ok {i : ChunkIndex} (h : parseChunkIndex buf = .ok i) :
    ∃ (es : List (UInt16 × UInt64)) (rest : Bytes), i.messageIndexOffsets = BTreeMap.insertAll ∅ es ∧
      Rest (buf.drop 36) 0 ((es.map intEntry).flatten ++ rest) ∧ 36 ≤ buf.length ∧
      Halts (fun k => k < 0 + announced buf 32) 0 (es.map intEntry) ∧
      36 + announced buf 32 + 8 + (4 + i.compression.length) + 8 + 8 ≤ buf.length ∧
      i.compression.length < 2 ^ 32 := by
  unfold parseChunkIndex at h
  obtain ⟨messageStartTime, -, -, h⟩ := field_getUint64 h
  obtain ⟨messageEndTime, -, -, h⟩ := field_getUint64 h
  obtain ⟨chunkStartOffset, -, -, h⟩ := field_getUint64 h
  obtain ⟨chunkLength, -, -, h⟩ := field_getUint64 h
  obtain ⟨⟨n, start⟩, hn, h⟩ := bind_wrap_eq_ok h
  obtain ⟨hnat, rfl, hle⟩ := announced_of_getUint32 hn
  obtain ⟨⟨m, inset⟩, hentries, h⟩ := Res.bind_eq_ok.mp h
  obtain ⟨es, rest, hm, hread, hinset, hhalts⟩ := reads_getChannelEntries (Nat.zero_le _) hentries
  obtain ⟨messageIndexLength, -, -, h⟩ := field_getUint64 h
  obtain ⟨⟨compression, o⟩, hcompression, h⟩ := bind_wrap_eq_ok h
  obtain ⟨-, -, rfl, hname⟩ := rest_of_getPrefixedString hcompression
  obtain ⟨compressedSize, -, -, h⟩ := field_getUint64 h
  obtain ⟨uncompressedSize, _, hsize, h⟩ := field_getUint64 h
  cases h
  have hlast := of_decide_eq_false hhalts.last
  have hend := hsize.u64.le
  rw [show n.toNat = announced buf 32 from hnat] at hhalts hlast
  refine ⟨es, rest, hm, hread, hle, hhalts, ?_, hname⟩
  show 36 + announced buf 32 + 8 + (4 + compression.length) + 8 + 8 ≤ buf.length
  omega

theorem parseChunkIndex_exactly_iff {i : ChunkIndex} (h : parseChunkIndex buf = .ok i) :
    ChannelMapExact buf (collectionAt op.CHUNK_INDEX buf) i.messageIndexOffsets ↔
      EndsEntry op.CHUNK_INDEX buf := by
  obtain ⟨es, rest, hm, hread, hle, hhalts, -, -⟩ := parseChunkIndex_eq_ok h
  have hat : collectionAt op.CHUNK_INDEX buf = 32 := rfl
  rw [endsEntry_iff (show collectionFields op.CHUNK_INDEX = some (_, _) from rfl), hat, hm]
  exact channelMapExact_iff (Rest.of_drop ⟨rfl, hle⟩ hread)
    (fun k _ => by rw [Nat.zero_add, Nat.zero_add]) hhalts

theorem parseStatistics_exactly_iff {s : Statistics} (h : parseStatistics buf = .ok s) :
    ChannelMapExact buf (collectionAt op.STATISTICS buf) s.channelMessageCounts ↔
      EndsEntry op.STATISTICS buf := by
  unfold parseStatistics at h
  split at h
  · cases h
  obtain ⟨messageCount, -, -, h⟩ := field_getUint64 h
  obtain ⟨schemaCount, -, -, h⟩ := field_getUint16 h
  obtain ⟨channelCount, -, -, h⟩ := field_getUint32 h
  obtain ⟨attachmentCount, -, -, h⟩ := field_getUint32 h
  obtain ⟨metadataCount, -, -, h⟩ := field_getUint32 h
  obtain ⟨chunkCount, -, -, h⟩ := field_getUint32 h
  obtain ⟨messageStartTime, -, -, h⟩ := field_getUint64 h
  obtain ⟨messageEndTime, -, -, h⟩ := field_getUint64 h
  obtain ⟨⟨n, start⟩, hn, h⟩ := bind_wrap_eq_ok h
  obtain ⟨hnat, rfl, hle⟩ := announced_of_getUint32 hn
  simp only at h
  split at h
  · cases h
  obtain ⟨⟨m, o⟩, hentries, h⟩ := Res.bind_eq_ok.mp h
  cases h
  obtain ⟨es, rest, rfl, hread, -, hhalts⟩ := reads_getChannelEntries hle hentries
  have hat : collectionAt op.STATISTICS buf = 0 + 8 + 2 + 4 + 4 + 4 + 4 + 8 + 8 := rfl
  rw [endsEntry_iff (show collectionFields op.STATISTICS = some (_, _) from rfl), hat]
  refine channelMapExact_iff hread (fun k _ => ?_) hhalts
  rw [hnat]
  exact decide_eq_decide.mpr (by omega)

/-- **The entries that are read are exactly the announced bytes** if and only if the announced length
ends an entry and, where the end is computed in 32 bits, is not wrapped. -/
theorem collections_exactly_iff (buf : Bytes) :
    (∀ c, parseChannel buf = .ok c → (MapExact buf (collectionAt op.CHANNEL buf) c.metadata ↔
      EndsEntry op.CHANNEL buf ∧ EndFits buf (collectionAt op.CHANNEL buf))) ∧
    (∀ m, parseMetadata buf = .ok m → (MapExact buf (collectionAt op.METADATA buf) m.metadata ↔
      EndsEntry op.METADATA buf ∧ EndFits buf (collectionAt op.METADATA buf))) ∧
    (∀ i, parseMessageIndex buf = .ok i →
      (RecordsExact buf (collectionAt op.MESSAGE_INDEX buf) i.records ↔
        EndsEntry op.MESSAGE_INDEX buf)) ∧
    (∀ i, parseChunkIndex buf = .ok i →
      (ChannelMapExact buf (collectionAt op.CHUNK_INDEX buf) i.messageIndexOffsets ↔
        EndsEntry op.CHUNK_INDEX buf)) ∧
    (∀ s, parseStatistics buf = .ok s →
      (ChannelMapExact buf (collectionAt op.STATISTICS buf) s.channelMessageCounts ↔
        EndsEntry op.STATISTICS buf)) :=
  ⟨fun _ => parseChannel_exactly_iff, fun _ => parseMetadata_exactly_iff,
    fun _ => parseMessageIndex_exactly_iff, fun _ => parseChunkIndex_exactly_iff,
    fun _ => parseStatistics_exactly_iff⟩

end

/-- A body of each kind with one entry in the announced bytes. -/
theorem collections_exactly_entry :
    MapExact (Metadata.body ⟨[], BTreeMap.insertAll ∅ [([1], [2])]⟩) 4
      (BTreeMap.insertAll ∅ [([1], [2])]) ∧
    RecordsExact (indexBody 1 [⟨5, 6⟩]) 2 [⟨5, 6⟩] := by
  constructor
  · exact ((collections_exactly_iff _).2.1 ⟨[], BTreeMap.insertAll ∅ [([1], [2])]⟩
      (by decide +kernel)).mpr ⟨⟨_, _, rfl, .cons (.nil _)⟩, by decide +kernel⟩
  · exact ((collections_exactly_iff _).2.2.1 ⟨1, [⟨5, 6⟩], 1⟩ (by decide +kernel)).mpr
      ⟨_, _, rfl, .cons (.nil _)⟩

/-- **Entries are read past the announced bytes, or not at all**: metadata that announces one byte has
an entry of eight, and a message index that announces `2 ^ 32 - 6` has none, and is all of its body. -/
theorem collections_exactly_fails :
    (∃ m, parseMetadata (le 4 0 ++ le 4 1 ++ List.replicate 8 0) = .ok m ∧
      m.metadata.size = 1 ∧
      ¬ MapExact (le 4 0 ++ le 4 1 ++ List.replicate 8 0) 4 m.metadata) ∧
    ∃ i, parseMessageIndex (u16 1 ++ le 4 (2 ^ 32 - 6)) = .ok i ∧ i.records = [] ∧
      ¬ RecordsExact (u16 1 ++ le 4 (2 ^ 32 - 6)) 2 i.records := by
  refine ⟨⟨⟨[], BTreeMap.insertAll ∅ [([], [])]⟩, by decide +kernel, by decide +kernel, ?_⟩,
    ⟨1, [], 0⟩, by decide +kernel, rfl, fun h => absurd h.length (by decide)⟩
  rintro ⟨es, hholds, -, -⟩
  have hlen : (es.map mapEntry).flatten.length = 1 := hholds.length.trans (by decide)
  cases es with
  | nil => cases hlen
  | cons e es =>
    rw [List.map_cons, List.flatten_cons, List.length_append, length_mapEntry] at hlen
    omega

end Go
end Mcap
