import Mcap.Records

/-! # Where things stand

Things of some sizes that stand one after the other have positions (`positions`).  The records of a file
are such things: `splitRecords` finds them again between the magic bytes, and what stands at the
position of a record is the record.
-/
namespace Mcap

section
variable {β γ : Type} (size : β → Nat)

/-- The size of things, one after the other. -/
def extent (l : List β) : Nat := (l.map size).sum

/-- Things with their positions, from `pos` on. -/
def positions (pos : Nat) : List β → List (Nat × β)
  | [] => []
  | b :: l => (pos, b) :: positions (pos + size b) l

@[simp] theorem extent_nil : extent size [] = 0 := rfl

@[simp] theorem extent_cons (b : β) (l : List β) : extent size (b :: l) = size b + extent size l := by
  simp [extent]

@[simp] theorem positions_nil (pos : Nat) : positions size pos [] = [] := rfl

theorem positions_append (pos : Nat) (l l' : List β) :
    positions size pos (l ++ l') = positions size pos l ++ positions size (pos + extent size l) l' := by
  induction l generalizing pos with
  | nil => rfl
  | cons b l ih =>
    rw [List.cons_append, positions, positions, ih, extent_cons, List.cons_append, Nat.add_assoc]

/-- **A thing has a position** if and only if it stands behind others of that extent. -/
theorem mem_positions {pos p : Nat} {b : β} {l : List β} :
    (p, b) ∈ positions size pos l ↔
      ∃ front back, l = front ++ b :: back ∧ p = pos + extent size front := by
  induction l generalizing pos with
  | nil =>
    constructor
    · rintro ⟨⟩
    · rintro ⟨front, back, heq, -⟩
      exact absurd heq (by simp)
  | cons b' l ih =>
    rw [positions, List.mem_cons, ih]
    constructor
    · rintro (heq | ⟨front, back, rfl, rfl⟩)
      · cases heq
        exact ⟨[], l, rfl, rfl⟩
      · exact ⟨b' :: front, back, rfl, by rw [extent_cons, Nat.add_assoc]⟩
    · rintro ⟨_ | ⟨b₁, front⟩, back, heq, rfl⟩
      · cases heq
        exact .inl rfl
      · cases heq
        exact .inr ⟨front, back, rfl, by rw [extent_cons, Nat.add_assoc]⟩

theorem snd_of_mem_positions {pos p : Nat} {b : β} {l : List β} (h : (p, b) ∈ positions size pos l) :
    b ∈ l := by
  obtain ⟨front, back, rfl, -⟩ := (mem_positions size).mp h
  exact List.mem_append_right _ List.mem_cons_self

theorem map_snd_positions (pos : Nat) (l : List β) : (positions size pos l).map Prod.snd = l := by
  induction l generalizing pos with
  | nil => rfl
  | cons b l ih => rw [positions, List.map_cons, ih]

end

/-! ## Records -/

/-- The size of a record. -/
def frameSize (p : UInt8 × Bytes) : Nat := (frame p.1 p.2).length

/-- The records of bytes, up to less than the header of one. -/
def splitRecords : Nat → Bytes → List (UInt8 × Bytes)
  | 0, _ => []
  | fuel + 1, bytes =>
      if bytes.length < 9 then []
      else
        let length := ofLe ((bytes.drop 1).take 8)
        (bytes.headD 0, (bytes.drop 9).take length) :: splitRecords fuel (bytes.drop (9 + length))

theorem splitRecords_frames {recs : List (UInt8 × Bytes)} {tail : Bytes} {fuel : Nat}
    (hlen : ∀ p ∈ recs, p.2.length < 2 ^ 64) (htail : tail.length < 9) (hfuel : recs.length < fuel) :
    splitRecords fuel (frames recs ++ tail) = recs := by
  induction recs generalizing fuel with
  | nil =>
    obtain _ | fuel := fuel
    · omega
    · exact if_pos htail
  | cons p recs ih =>
    obtain _ | fuel := fuel
    · omega
    · obtain ⟨opcode, body⟩ := p
      have hbody : body.length < 256 ^ 8 := hlen (opcode, body) List.mem_cons_self
      have hbytes : frames ((opcode, body) :: recs) ++ tail =
          opcode :: (le 8 body.length ++ (body ++ (frames recs ++ tail))) := by
        rw [frames_cons, frame]
        simp
      have hlength : ofLe ((le 8 body.length ++ (body ++ (frames recs ++ tail))).take 8) =
          body.length := by
        rw [List.take_left' (length_le 8 _), ofLe_le_of_lt hbody]
      have hdrop : ∀ n, (opcode :: (le 8 body.length ++ (body ++ (frames recs ++ tail)))).drop
          (9 + n) = (body ++ (frames recs ++ tail)).drop n := by
        intro n
        rw [show 9 + n = (8 + n) + 1 by omega, List.drop_succ_cons, ← List.drop_drop,
          List.drop_left' (length_le 8 _)]
      rw [hbytes, splitRecords, if_neg]
      · simp only [List.drop_succ_cons, List.drop_zero, hlength, List.headD_cons, hdrop]
        rw [List.drop_left' rfl, ih (fun q hq => hlen q (List.mem_cons_of_mem _ hq))
          (by simpa using hfuel)]
        have h8 : (le 8 body.length ++ (body ++ (frames recs ++ tail))).drop 8 =
            body ++ (frames recs ++ tail) := List.drop_left' (length_le 8 _)
        rw [h8, List.take_left' rfl]
      · simp only [List.length_cons, List.length_append, length_le]
        omega

/-- The records of a file with their positions, behind the magic bytes. -/
def recordsAt (file : Bytes) : List (Nat × UInt8 × Bytes) :=
  positions frameSize 8 (splitRecords file.length (file.drop 8))

/-- **The records of a file are found again.** -/
theorem recordsAt_frames {recs : List (UInt8 × Bytes)} (hlen : ∀ p ∈ recs, p.2.length < 2 ^ 64) :
    recordsAt (MAGIC ++ (frames recs ++ MAGIC)) = positions frameSize 8 recs := by
  have hcount : recs.length ≤ (frames recs).length := by
    clear hlen
    induction recs with
    | nil => exact Nat.zero_le _
    | cons p recs ih =>
      rw [frames_cons, List.length_append, length_frame, List.length_cons]
      omega
  unfold recordsAt
  rw [List.drop_left' MAGIC_length, splitRecords_frames hlen (by decide)]
  rw [List.length_append, List.length_append, MAGIC_length]
  omega

end Mcap
