import Mcap.TsCodec

/-! # The bytes that the TypeScript library reads

`Accepts` says what the bytes of a field are: a reader takes them wherever they stand, and takes no
others.  The bytes of a map are those of entries whose keys are different, behind their length.

A row of fields is read if and only if the view goes on with bytes of its fields, one behind the other,
and no bytes of a row begin with those of another (`Admits`).
-/
namespace Mcap
namespace Ts

open Reader

/-! ## The bytes of a field -/

/-- The bytes of a number. -/
def number (size n : Nat) (enc : Bytes) : Prop := enc.length = size ∧ n = ofLe enc

/-- The bytes of a string. -/
def text (decode : Bytes → String) (s : String) (enc : Bytes) : Prop :=
  ∃ bytes, bytes.length < 2 ^ 32 ∧ enc = le 4 bytes.length ++ bytes ∧
    s = if bytes.length = 0 then "" else decode bytes

/-- An entry and its bytes. -/
def IsEntry {K V : Type} (key : K → Bytes → Prop) (value : V → Bytes → Prop)
    (e : (K × V) × Bytes) : Prop :=
  ∃ k v, e.2 = k ++ v ∧ key e.1.1 k ∧ value e.1.2 v

/-- The bytes of entries, behind their length. -/
def entries {K V : Type} (key : K → Bytes → Prop) (value : V → Bytes → Prop) (items : List (K × V))
    (enc : Bytes) : Prop :=
  ∃ es : List ((K × V) × Bytes),
    (∀ e ∈ es, IsEntry key value e) ∧ items = es.map Prod.fst ∧
    (es.flatMap Prod.snd).length < 2 ^ 32 ∧
    enc = le 4 (es.flatMap Prod.snd).length ++ es.flatMap Prod.snd

/-- The bytes of a map: no key is there twice. -/
def entriesOfMap {K V : Type} (key : K → Bytes → Prop) (value : V → Bytes → Prop) (d : Dict K V)
    (enc : Bytes) : Prop := entries key value d.items enc

/-- **What a reader takes**: `p` reads `a` off any bytes that are those of `a`, wherever they stand, and
reads nothing else. -/
structure Accepts {α : Type} (p : Read α) (S : α → Bytes → Prop) : Prop where
  recovers : ∀ a enc, S a enc → Recovers p enc a
  spelled : ∀ front rest a r, p ⟨front ++ rest, front.length⟩ = .ok (a, r) →
    ∃ enc back, rest = enc ++ back ∧ S a enc ∧ r = ⟨front ++ rest, front.length + enc.length⟩

theorem read_bind_ok {α β : Type} {p : Read α} {f : α → Read β} {r r₁ : Reader} {a : α}
    (hp : p r = .ok (a, r₁)) (hf : ∃ x, f a r₁ = .ok x) : ∃ x, (p >>= f) r = .ok x := by
  rw [read_bind, hp]
  exact hf

theorem reads_uint (size : Nat) : Accepts (uint size) (number size) where
  recovers := by
    rintro n enc ⟨hsize, rfl⟩ front back
    rw [uint_at front enc back hsize, hsize]
  spelled front rest n r h := by
    unfold uint at h
    dsimp only at h
    rw [List.drop_left] at h
    split at h
    · rename_i hle
      rw [List.length_append] at hle
      cases h
      have hlength : (rest.take size).length = size := by
        rw [List.length_take]
        omega
      refine ⟨rest.take size, rest.drop size, (List.take_append_drop size rest).symm, ⟨hlength, rfl⟩, ?_⟩
      rw [hlength]
    · cases h

theorem reads_string (decode : Bytes → String) : Accepts (string decode) (text decode) where
  recovers := by
    rintro s enc ⟨bytes, hsize, rfl, rfl⟩ front back
    have hlength := recovers_uint32 hsize front (bytes ++ back)
    unfold string
    rw [read_bind, List.append_assoc, hlength]
    show (if bytes.length = 0 then _ else _ : Read String) _ = _
    by_cases hnil : bytes.length = 0
    · rw [if_pos hnil, if_pos hnil, List.length_append, hnil]
      rfl
    · rw [if_neg hnil, if_neg hnil]
      have hdata := recovers_u8Array bytes (front ++ le 4 bytes.length) back
      rw [List.append_assoc, List.length_append] at hdata
      show (if (Reader.mk _ _).bytesRemaining < bytes.length then _ else _ : Read String) _ = _
      rw [if_neg (by
        unfold bytesRemaining
        simp only [List.length_append]
        omega), read_bind, hdata]
      show Except.ok (decode bytes, _) = _
      rw [List.length_append, Nat.add_assoc]
  spelled front rest s r h := by
    unfold string at h
    obtain ⟨n, r₁, hlength, h⟩ := run_bind_eq_ok h
    obtain ⟨enc, back, rfl, ⟨henc, rfl⟩, rfl⟩ := (reads_uint 4).spelled _ _ _ _ hlength
    have hle : le 4 (ofLe enc) = enc := by
      rw [← henc]
      exact le_ofLe enc
    change (if ofLe enc = 0 then _ else _ : Read String) _ = _ at h
    by_cases hzero : ofLe enc = 0
    · rw [if_pos hzero] at h
      cases h
      refine ⟨enc, back, rfl, ⟨[], by decide, ?_, rfl⟩, rfl⟩
      rw [List.length_nil, ← hzero, hle, List.append_nil]
    · rw [if_neg hzero] at h
      change (if (Reader.mk _ _).bytesRemaining < ofLe enc then _ else _ : Read String) _ = _ at h
      split at h
      · cases h
      · rename_i hremaining
        unfold bytesRemaining at hremaining
        simp only [List.length_append] at hremaining
        have hbytes : (back.take (ofLe enc)).length = ofLe enc := by
          rw [List.length_take]
          omega
        have hdata := recovers_u8Array (back.take (ofLe enc)) (front ++ enc) (back.drop (ofLe enc))
        rw [List.take_append_drop, List.append_assoc, List.length_append, hbytes] at hdata
        rw [read_bind, hdata] at h
        cases h
        refine ⟨enc ++ back.take (ofLe enc), back.drop (ofLe enc), ?_,
          ⟨back.take (ofLe enc), ?_, ?_, ?_⟩, ?_⟩
        · rw [List.append_assoc, List.take_append_drop]
        · rw [hbytes]
          have hlt := ofLe_lt enc
          rwa [henc] at hlt
        · rw [hbytes, hle]
        · rw [hbytes, if_neg hzero]
        · rw [List.length_append, hbytes, Nat.add_assoc]

/-! ## Entries -/

section
variable {σ K V : Type} {step : σ → Read σ} {items : σ → List (K × V)}
  {key : K → Bytes → Prop} {value : V → Bytes → Prop}

/-- **A step adds the entry that it reads.** -/
def AddsEntry (step : σ → Read σ) (items : σ → List (K × V)) (key : K → Bytes → Prop)
    (value : V → Bytes → Prop) : Prop :=
  ∀ s front rest s' r, step s ⟨front ++ rest, front.length⟩ = .ok (s', r) →
    ∃ e back, rest = e.2 ++ back ∧ IsEntry key value e ∧ items s' = items s ++ [e.1] ∧
      r = ⟨front ++ rest, front.length + e.2.length⟩

theorem AddsEntry.whileBefore (h : AddsEntry step items key value) {endOffset fuel : Nat} {s s' : σ}
    {front rest : Bytes} {r : Reader}
    (hrun : Reader.whileBefore endOffset step fuel s ⟨front ++ rest, front.length⟩ = .ok (s', r)) :
    ∃ (es : List ((K × V) × Bytes)) (back : Bytes), rest = es.flatMap Prod.snd ++ back ∧
      (∀ e ∈ es, IsEntry key value e) ∧
      items s' = items s ++ es.map Prod.fst ∧
      r = ⟨front ++ rest, front.length + (es.flatMap Prod.snd).length⟩ := by
  induction fuel generalizing s front rest with
  | zero =>
    cases hrun
    exact ⟨[], rest, rfl, List.forall_mem_nil _, (List.append_nil _).symm, rfl⟩
  | succ fuel ih =>
    unfold Reader.whileBefore at hrun
    dsimp only at hrun
    split at hrun
    · obtain ⟨s₁, r₁, hstep, hrun⟩ := run_bind_eq_ok hrun
      obtain ⟨e, back, rfl, hentry, hitems, rfl⟩ := h _ _ _ _ _ hstep
      have hmore : Reader.whileBefore endOffset step fuel s₁
          ⟨(front ++ e.2) ++ back, (front ++ e.2).length⟩ = .ok (s', r) := by
        rw [List.append_assoc, List.length_append]
        exact hrun
      obtain ⟨es, back', rfl, hes, hitems', rfl⟩ := ih hmore
      refine ⟨e :: es, back', ?_, List.forall_mem_cons.mpr ⟨hentry, hes⟩, ?_, ?_⟩
      · rw [List.flatMap_cons, List.append_assoc]
      · rw [hitems', hitems, List.append_assoc]
        rfl
      · rw [List.flatMap_cons, List.append_assoc, List.length_append, List.length_append,
          Nat.add_assoc]
    · cases hrun
      exact ⟨[], rest, rfl, List.forall_mem_nil _, (List.append_nil _).symm, rfl⟩

/-- **The entries of a loop take the bytes that are announced.** -/
theorem AddsEntry.countedLoop (h : AddsEntry step items key value) {s s' : σ}
    (exceeds : Nat → TsError) (greater : Nat → Nat → TsError) (wrap : TsError → TsError)
    (hempty : items s = []) {front rest : Bytes} {r : Reader}
    (hrun : Ts.countedLoop step s exceeds greater wrap ⟨front ++ rest, front.length⟩ = .ok (s', r)) :
    ∃ enc back, rest = enc ++ back ∧ entries key value (items s') enc ∧
      r = ⟨front ++ rest, front.length + enc.length⟩ := by
  unfold Ts.countedLoop at hrun
  obtain ⟨n, r₁, hlength, hrun⟩ := run_bind_eq_ok hrun
  obtain ⟨enc, back, rfl, ⟨henc, rfl⟩, rfl⟩ := (reads_uint 4).spelled _ _ _ _ hlength
  change (if _ then _ else _ : Read σ) _ = _ at hrun
  split at hrun
  · cases hrun
  · rw [read_bind] at hrun
    rcases hloop : Reader.whileBefore (front.length + enc.length + ofLe enc) step (ofLe enc + 1) s
      ⟨(front ++ enc) ++ back, (front ++ enc).length⟩ with e | ⟨s₁, r₁⟩
    · rw [List.append_assoc, List.length_append] at hloop
      unfold rethrow at hrun
      rw [hloop] at hrun
      cases hrun
    · obtain ⟨es, back', rfl, hes, hitems, rfl⟩ := AddsEntry.whileBefore h hloop
      rw [List.append_assoc, List.length_append] at hloop
      unfold rethrow at hrun
      rw [hloop] at hrun
      change (if _ then _ else _ : Read σ) _ = _ at hrun
      split at hrun
      · cases hrun
      · rename_i hend
        cases hrun
        have htotal : (es.flatMap Prod.snd).length = ofLe enc := by
          have hend' := not_not.mp hend
          dsimp only at hend'
          omega
        have hlt := ofLe_lt enc
        rw [henc] at hlt
        refine ⟨enc ++ es.flatMap Prod.snd, back', (List.append_assoc _ _ _).symm,
          ⟨es, hes, ?_, ?_, ?_⟩, ?_⟩
        · rw [hitems, hempty, List.nil_append]
        · rw [htotal]
          exact hlt
        · rw [htotal, ← henc, le_ofLe]
        · simp only [List.length_append, Nat.add_assoc]

end

section
variable {K V : Type} {readKey : Read K} {readValue : Read V} {key : K → Bytes → Prop}
  {value : V → Bytes → Prop}

theorem addsEntry_pairStep (hkey : Accepts readKey key) (hvalue : Accepts readValue value) :
    AddsEntry (pairStep readKey readValue) id key value := by
  intro s front rest s' r hrun
  unfold pairStep at hrun
  obtain ⟨k, r₁, hk, hrun⟩ := run_bind_eq_ok hrun
  obtain ⟨ek, back, rfl, hek, rfl⟩ := hkey.spelled _ _ _ _ hk
  rw [← List.append_assoc, ← List.length_append] at hrun
  obtain ⟨v, r₂, hv, hrun⟩ := run_bind_eq_ok hrun
  obtain ⟨ev, back', rfl, hev, rfl⟩ := hvalue.spelled _ _ _ _ hv
  cases hrun
  refine ⟨((k, v), ek ++ ev), back', (List.append_assoc _ _ _).symm, ⟨ek, ev, rfl, hek, hev⟩, rfl, ?_⟩
  simp only [List.length_append, List.append_assoc, Nat.add_assoc]

theorem reads_keyValuePairs (hkey : Accepts readKey key) (hvalue : Accepts readValue value)
    (hne : ∀ k enc, key k enc → enc ≠ []) :
    Accepts (keyValuePairs readKey readValue) (entries key value) where
  recovers := by
    rintro items enc ⟨es, hes, rfl, hsize, rfl⟩
    have hfold : ∀ (es : List ((K × V) × Bytes)) (s : List (K × V)),
        es.foldl (fun result e => result ++ [e.1]) s = s ++ es.map Prod.fst := by
      intro es
      induction es with
      | nil => exact fun s => (List.append_nil s).symm
      | cons e es ih =>
        intro s
        rw [List.foldl_cons, ih, List.append_assoc]
        rfl
    have hloop := recovers_countedLoop (pairStep readKey readValue)
      (fun result (e : (K × V) × Bytes) => result ++ [e.1]) Prod.snd es [] .pairsExceed .pairsGreater
      .readingPairs hsize fun before e after heq => by
        obtain ⟨k, v, henc, hk, hv⟩ := hes e (heq ▸ List.mem_append_right _ List.mem_cons_self)
        rw [henc]
        exact ⟨(hkey.recovers _ _ hk).bind ((hvalue.recovers _ _ hv).bind_pure _),
          fun hnil => hne _ _ hk (List.append_eq_nil_iff.mp hnil).1⟩
    rw [hfold, List.nil_append] at hloop
    exact hloop
  spelled front rest a r hrun :=
    (addsEntry_pairStep hkey hvalue).countedLoop .pairsExceed .pairsGreater .readingPairs rfl hrun

variable [DecidableEq K]

theorem addsEntry_mapStep (hkey : Accepts readKey key) (hvalue : Accepts readValue value) :
    AddsEntry (mapStep readKey readValue) Dict.items key value := by
  intro s front rest s' r hrun
  unfold mapStep at hrun
  obtain ⟨k, r₁, hk, hrun⟩ := run_bind_eq_ok hrun
  obtain ⟨ek, back, rfl, hek, rfl⟩ := hkey.spelled _ _ _ _ hk
  rw [← List.append_assoc, ← List.length_append] at hrun
  obtain ⟨v, r₂, hv, hrun⟩ := run_bind_eq_ok hrun
  obtain ⟨ev, back', rfl, hev, rfl⟩ := hvalue.spelled _ _ _ _ hv
  change (if _ then _ else _ : Read _) _ = _ at hrun
  split at hrun
  · cases hrun
  · rename_i hnew
    rw [Bool.not_eq_true, Option.isSome_eq_false_iff, Option.isNone_iff_eq_none,
      Dict.get?_eq_none] at hnew
    cases hrun
    refine ⟨((k, v), ek ++ ev), back', (List.append_assoc _ _ _).symm, ⟨ek, ev, rfl, hek, hev⟩,
      Dict.items_set_of_not_mem hnew v, ?_⟩
    simp only [List.length_append, List.append_assoc, Nat.add_assoc]

theorem recovers_mapStep {d d' : Dict K V} {e : (K × V) × Bytes} (hkey : Accepts readKey key)
    (hvalue : Accepts readValue value) (he : IsEntry key value e) (hnew : e.1.1 ∉ d.keys)
    (hd : d' = d.set e.1.1 e.1.2) : Recovers (mapStep readKey readValue d) e.2 d' := by
  obtain ⟨k, v, henc, hk, hv⟩ := he
  rw [henc, hd]
  refine (hkey.recovers _ _ hk).bind fun front back => ?_
  rw [read_bind, hvalue.recovers _ _ hv front back]
  show (if (d.get? e.1.1).isSome then _ else _ : Read _) _ = _
  rw [Dict.get?_eq_none.mpr hnew]
  rfl

theorem reads_map (hkey : Accepts readKey key) (hvalue : Accepts readValue value)
    (hne : ∀ k enc, key k enc → enc ≠ []) :
    Accepts (Reader.map readKey readValue) (entriesOfMap key value) where
  recovers := by
    rintro d enc ⟨es, hes, hitems, hsize, rfl⟩
    have hfold : ∀ es : List ((K × V) × Bytes),
        es.foldl (fun d e => d.set e.1.1 e.1.2) ∅ = (∅ : Dict K V).setAll (es.map Prod.fst) :=
      fun es => by rw [Dict.setAll, List.foldl_map]
    have hloop := recovers_countedLoop (mapStep readKey readValue)
      (fun (d : Dict K V) (e : (K × V) × Bytes) => d.set e.1.1 e.1.2) Prod.snd es ∅ .mapExceeds .mapGreater
      .readingMap hsize fun before e after heq => by
        have he := hes e (heq ▸ List.mem_append_right _ List.mem_cons_self)
        have hnodup := d.nodup
        rw [hitems, heq, List.map_append, List.map_append, List.map_cons, List.map_cons] at hnodup
        refine ⟨recovers_mapStep hkey hvalue he (fun hmem => ?_) rfl, ?_⟩
        · rw [hfold] at hmem
          rcases keys_setAll_subset hmem with hmem | hmem
          · cases hmem
          · exact (List.nodup_append.mp hnodup).2.2 _ hmem _ List.mem_cons_self rfl
        · obtain ⟨k, v, henc, hk, -⟩ := he
          rw [henc]
          exact fun hnil => hne _ _ hk (List.append_eq_nil_iff.mp hnil).1
    rw [hfold, ← hitems, Dict.ofList_items] at hloop
    exact hloop
  spelled front rest a r hrun :=
    (addsEntry_mapStep hkey hvalue).countedLoop .mapExceeds .mapGreater .readingMap rfl hrun

end

/-! ## Rows of fields -/

/-- The bytes of some value. -/
def Shape {α : Type} (S : α → Bytes → Prop) (enc : Bytes) : Prop := ∃ a, S a enc

/-- One field behind the other. -/
def Fields : List (Bytes → Prop) → Bytes → Prop
  | [], enc => enc = []
  | P :: Ps, enc => ∃ e e', enc = e ++ e' ∧ P e ∧ Fields Ps e'

/-- **What a reading depends on**: there is a result if and only if the view goes on with bytes of a
kind, and no bytes of the kind begin with others. -/
structure Admits {α : Type} (p : Read α) (S : Bytes → Prop) : Prop where
  ok_iff : ∀ front rest, (∃ x, p ⟨front ++ rest, front.length⟩ = .ok x) ↔
    ∃ enc back, rest = enc ++ back ∧ S enc
  prefixFree : ∀ enc more, S enc → S (enc ++ more) → more = []

section
variable {α β : Type} {p : Read α} {S : α → Bytes → Prop}

theorem Accepts.eq_of_append_eq (h : Accepts p S) {a b : α} {e d e' d' : Bytes} (he : S a e) (hd : S b d)
    (heq : e ++ e' = d ++ d') : e = d := by
  have hrun := h.recovers a e he [] e'
  have hrun' := h.recovers b d hd [] d'
  rw [heq, hrun'] at hrun
  have hoffset := congrArg (fun r : Reader => r.offset) (Prod.mk.inj (Except.ok.inj hrun)).2
  have hlength : d.length = e.length := Nat.add_left_cancel hoffset
  exact (List.append_inj heq hlength.symm).1

theorem Admits.get {f : Reader → Read β} {P : Bytes → Prop} (h : ∀ r, Admits (f r) P) :
    Admits (MonadState.get >>= f) P where
  ok_iff front rest := (h ⟨front ++ rest, front.length⟩).ok_iff front rest
  prefixFree := (h ⟨[], 0⟩).prefixFree

theorem admits_nil {q : Read β} (h : ∀ r, ∃ x, q r = .ok x) : Admits q (Fields []) where
  ok_iff _ rest := ⟨fun _ => ⟨[], rest, rfl, rfl⟩, fun _ => h _⟩
  prefixFree _ _ _ hmore := (List.append_eq_nil_iff.mp hmore).2

theorem Admits.field {f : α → Read β} {Ps : List (Bytes → Prop)} (hp : Accepts p S)
    (hf : ∀ a, Admits (f a) (Fields Ps)) : Admits (p >>= f) (Fields (Shape S :: Ps)) where
  ok_iff front rest := by
    constructor
    · rintro ⟨⟨b, r⟩, hrun⟩
      obtain ⟨a, r₁, ha, hrun⟩ := run_bind_eq_ok hrun
      obtain ⟨e, back, rfl, he, rfl⟩ := hp.spelled _ _ _ _ ha
      rw [← List.append_assoc, ← List.length_append] at hrun
      obtain ⟨e', back', rfl, he'⟩ := ((hf a).ok_iff (front ++ e) back).mp ⟨_, hrun⟩
      exact ⟨e ++ e', back', (List.append_assoc _ _ _).symm, e, e', rfl, ⟨a, he⟩, he'⟩
    · rintro ⟨_, back, rfl, e, e', rfl, ⟨a, he⟩, he'⟩
      rw [List.append_assoc, read_bind, hp.recovers a e he]
      have hmore := ((hf a).ok_iff (front ++ e) (e' ++ back)).mpr ⟨e', back, rfl, he'⟩
      rw [List.append_assoc, List.length_append] at hmore
      exact hmore
  prefixFree := by
    rintro _ more ⟨e, e', rfl, ⟨a, he⟩, he'⟩ ⟨d, d', heq, ⟨b, hd⟩, hd'⟩
    rw [List.append_assoc] at heq
    obtain rfl := hp.eq_of_append_eq he hd heq
    obtain rfl := List.append_cancel_left heq
    exact (hf a).prefixFree e' more he' hd'

end

end Ts
end Mcap
