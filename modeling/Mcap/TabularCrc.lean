import Mcap.Crc32
import Mathlib.Logic.Function.Iterate

/-! # CRC-32 by tables

`crc32Update` of the C++ library and `update16Byte` of the Swift library take eight and sixteen bytes
at a time, with as many tables.  A bit of the register is linear, so the register behind some bytes is
the exclusive or of what the register and each of the bytes come to behind the zero bytes that stand
for the rest (`zeros`).  Table `k` holds what a byte comes to behind `k + 1` of them
(`Tabulates`), and four lookups are a word of the register (`wordLookup_eq`).
-/
namespace Mcap

/-! ## The register is linear -/

theorem and_one_cases (c : UInt32) : c &&& 1 = 0 ∨ c &&& 1 = 1 := by
  have h : (c &&& 1).toNat = c.toNat % 2 := by simp
  rcases Nat.mod_two_eq_zero_or_one c.toNat with hbit | hbit
  · exact .inl (UInt32.toNat_inj.mp (by rw [h, hbit]; rfl))
  · exact .inr (UInt32.toNat_inj.mp (by rw [h, hbit]; rfl))

theorem xor_right_swap (a b c : UInt32) : a ^^^ b ^^^ c = a ^^^ c ^^^ b := by ac_rfl

theorem xor_cancel (a b c : UInt32) : a ^^^ c ^^^ (b ^^^ c) = a ^^^ b := by
  rw [← UInt32.xor_assoc, xor_right_swap a c b, UInt32.xor_assoc, UInt32.xor_self, UInt32.xor_zero]

theorem crcBit_xor (a b : UInt32) : crcBit (a ^^^ b) = crcBit a ^^^ crcBit b := by
  have hbit : (a ^^^ b) &&& 1 = (a &&& 1) ^^^ (b &&& 1) :=
    UInt32.toNat_inj.mp (by simp [Nat.xor_mod_two_pow (n := 1)])
  unfold crcBit
  rw [hbit, UInt32.shiftRight_xor]
  rcases and_one_cases a with ha | ha <;> rcases and_one_cases b with hb | hb <;> rw [ha, hb]
  · rfl
  · exact UInt32.xor_assoc ..
  · exact xor_right_swap ..
  · exact (xor_cancel ..).symm

/-- The register behind a zero byte. -/
def crcZero (c : UInt32) : UInt32 := Nat.repeat crcBit 8 c

theorem repeat_crcBit_xor (k : Nat) (a b : UInt32) :
    Nat.repeat crcBit k (a ^^^ b) = Nat.repeat crcBit k a ^^^ Nat.repeat crcBit k b := by
  induction k with
  | zero => rfl
  | succ k ih => rw [Nat.repeat, ih, crcBit_xor, Nat.repeat, Nat.repeat]

/-- The register behind `n` zero bytes. -/
def zeros (n : Nat) (c : UInt32) : UInt32 := crcZero^[n] c

theorem zeros_succ (n : Nat) (c : UInt32) : zeros (n + 1) c = zeros n (crcZero c) := rfl

theorem zeros_xor (n : Nat) (a b : UInt32) : zeros n (a ^^^ b) = zeros n a ^^^ zeros n b := by
  induction n generalizing a b with
  | zero => rfl
  | succ n ih => rw [zeros_succ, crcZero, repeat_crcBit_xor, ih]; rfl

theorem zeros_zeros (m n : Nat) (c : UInt32) : zeros m (zeros n c) = zeros (n + m) c := by
  rw [Nat.add_comm]
  exact (Function.iterate_add_apply ..).symm

theorem zeros_zero (n : Nat) : zeros n 0 = 0 := by
  have h := zeros_xor n 0 0
  rwa [UInt32.xor_self, UInt32.xor_self] at h

theorem toNat_repeat_crcBit (k : Nat) {c : UInt32} (h : c.toNat % 2 ^ k = 0) :
    (Nat.repeat crcBit k c).toNat = c.toNat / 2 ^ k := by
  induction k with
  | zero => simp [Nat.repeat]
  | succ k ih =>
    rw [Nat.pow_succ] at h ⊢
    have hlow : c.toNat % 2 ^ k = 0 := Nat.mod_eq_zero_of_dvd
      (Nat.dvd_trans (Nat.dvd_mul_right ..) (Nat.dvd_of_mod_eq_zero h))
    have hshifted := ih hlow
    have heven : (c.toNat / 2 ^ k) % 2 = 0 := by
      rw [Nat.mod_mul] at h
      have hpos := Nat.two_pow_pos k
      by_contra hodd
      have hmul := Nat.pos_of_ne_zero (Nat.mul_ne_zero hpos.ne' hodd)
      omega
    have hbit : Nat.repeat crcBit k c &&& 1 = 0 := UInt32.toNat_inj.mp (by simp [hshifted, heven])
    rw [Nat.repeat, crcBit, hbit, if_neg (by decide)]
    simp [hshifted, Nat.shiftRight_eq_div_pow, Nat.div_div_eq_div_mul]

theorem toNat_lowByte (c : UInt32) : (c &&& 0xff).toNat = c.toNat % 2 ^ 8 := by
  rw [UInt32.toNat_and]
  exact Nat.and_two_pow_sub_one_eq_mod c.toNat 8

/-- **A byte of the register**: the high bytes only move down. -/
theorem crcZero_split (c : UInt32) : crcZero c = crcZero (c &&& 0xff) ^^^ (c >>> 8) := by
  have hlow : (c ^^^ (c &&& 0xff)).toNat % 2 ^ 8 = 0 := by
    rw [UInt32.toNat_xor, toNat_lowByte, Nat.xor_mod_two_pow, Nat.mod_mod, Nat.xor_self]
  have hhigh : crcZero (c ^^^ (c &&& 0xff)) = c >>> 8 := by
    refine UInt32.toNat_inj.mp ?_
    rw [crcZero, toNat_repeat_crcBit 8 hlow, UInt32.toNat_xor, toNat_lowByte, Nat.xor_div_two_pow,
      Nat.div_eq_of_lt (Nat.mod_lt _ (by decide)), Nat.xor_zero]
    simp [Nat.shiftRight_eq_div_pow]
  rw [← hhigh, crcZero, crcZero, crcZero, repeat_crcBit_xor 8 c, UInt32.xor_comm, UInt32.xor_assoc,
    UInt32.xor_self, UInt32.xor_zero]

theorem zeros_split (n : Nat) (c : UInt32) :
    zeros (n + 1) c = zeros (n + 1) (c &&& 0xff) ^^^ zeros n (c >>> 8) := by
  rw [zeros_succ, crcZero_split, zeros_xor]
  rfl

theorem zeros_word (n : Nat) (c : UInt32) :
    zeros (n + 4) c = zeros (n + 1) ((c >>> 24) &&& 0xff) ^^^ zeros (n + 2) ((c >>> 16) &&& 0xff) ^^^
      zeros (n + 3) ((c >>> 8) &&& 0xff) ^^^ zeros (n + 4) (c &&& 0xff) := by
  have h16 : c >>> 8 >>> 8 = c >>> 16 :=
    UInt32.toNat_inj.mp (by simp [Nat.shiftRight_eq_div_pow, Nat.div_div_eq_div_mul])
  have h24 : c >>> 16 >>> 8 = c >>> 24 :=
    UInt32.toNat_inj.mp (by simp [Nat.shiftRight_eq_div_pow, Nat.div_div_eq_div_mul])
  have h32 : c >>> 24 >>> 8 = 0 := by
    have hlt := c.toNat_lt
    refine UInt32.toNat_inj.mp ?_
    simp [Nat.shiftRight_eq_div_pow]
    omega
  rw [zeros_split (n + 3), zeros_split (n + 2), zeros_split (n + 1), zeros_split n, h16, h24, h32,
    zeros_zero, UInt32.xor_zero]
  ac_rfl

/-! ## Bytes and words -/

theorem crcByte_eq (c : UInt32) (b : UInt8) : crcByte c b = zeros 1 (c ^^^ b.toUInt32) := rfl

/-- `getUint32LE` of C++, and a load of a `UInt32` on a little-endian machine. -/
def getUint32LE (data : Bytes) (offset : Nat) : UInt32 :=
  (data.getD offset 0).toUInt32 <<< 0 ||| (data.getD (offset + 1) 0).toUInt32 <<< 8 |||
    (data.getD (offset + 2) 0).toUInt32 <<< 16 ||| (data.getD (offset + 3) 0).toUInt32 <<< 24

theorem toNat_shiftLeft_byte (b : UInt8) {k : UInt32} (hk : k.toNat ≤ 24) :
    (b.toUInt32 <<< k).toNat = b.toNat * 2 ^ k.toNat := by
  have hlt : b.toNat * 2 ^ k.toNat < 2 ^ 8 * 2 ^ 24 :=
    Nat.mul_lt_mul_of_lt_of_le b.toNat_lt (Nat.pow_le_pow_right (by decide) hk) (Nat.two_pow_pos _)
  rw [UInt32.toNat_shiftLeft, UInt8.toNat_toUInt32, Nat.mod_eq_of_lt (show k.toNat < 32 by omega),
    Nat.shiftLeft_eq]
  exact Nat.mod_eq_of_lt hlt

theorem or_mul_two_pow {low k : Nat} (high : Nat) (h : low < 2 ^ k) :
    low ||| high * 2 ^ k = low + high * 2 ^ k := by
  rw [Nat.or_comm, ← Nat.shiftLeft_eq, ← Nat.shiftLeft_add_eq_or_of_lt h, Nat.shiftLeft_eq,
    Nat.add_comm]

theorem toNat_getUint32LE (data : Bytes) (offset : Nat) : (getUint32LE data offset).toNat =
    (data.getD offset 0).toNat + (data.getD (offset + 1) 0).toNat * 2 ^ 8 +
      (data.getD (offset + 2) 0).toNat * 2 ^ 16 + (data.getD (offset + 3) 0).toNat * 2 ^ 24 := by
  unfold getUint32LE
  generalize data.getD offset 0 = b₀, data.getD (offset + 1) 0 = b₁, data.getD (offset + 2) 0 = b₂,
    data.getD (offset + 3) 0 = b₃
  have h₀ := b₀.toNat_lt
  have h₁ := b₁.toNat_lt
  have h₂ := b₂.toNat_lt
  rw [UInt32.toNat_or, UInt32.toNat_or, UInt32.toNat_or, toNat_shiftLeft_byte b₀ (by decide),
    toNat_shiftLeft_byte b₁ (by decide), toNat_shiftLeft_byte b₂ (by decide),
    toNat_shiftLeft_byte b₃ (by decide)]
  show b₀.toNat * 1 ||| b₁.toNat * 2 ^ 8 ||| b₂.toNat * 2 ^ 16 ||| b₃.toNat * 2 ^ 24 = _
  rw [Nat.mul_one, or_mul_two_pow b₁.toNat h₀, or_mul_two_pow b₂.toNat (by omega),
    or_mul_two_pow b₃.toNat (by omega)]

/-- **Four bytes are a word** over the register. -/
theorem foldl_word (c : UInt32) (data : Bytes) (offset : Nat) :
    [data.getD offset 0, data.getD (offset + 1) 0, data.getD (offset + 2) 0,
      data.getD (offset + 3) 0].foldl crcByte c = zeros 4 (c ^^^ getUint32LE data offset) := by
  have hword := toNat_getUint32LE data offset
  rw [zeros_xor, zeros_word 0 (getUint32LE data offset)]
  generalize data.getD offset 0 = b₀, data.getD (offset + 1) 0 = b₁, data.getD (offset + 2) 0 = b₂,
    data.getD (offset + 3) 0 = b₃, getUint32LE data offset = w at hword ⊢
  have h₀ := b₀.toNat_lt
  have h₁ := b₁.toNat_lt
  have h₂ := b₂.toNat_lt
  have h₃ := b₃.toNat_lt
  have hbyte : ∀ {v : UInt32} {b : UInt8}, v.toNat % 2 ^ 8 = b.toNat → v &&& 0xff = b.toUInt32 :=
    fun h => UInt32.toNat_inj.mp ((toNat_lowByte _).trans (h.trans (UInt8.toNat_toUInt32 _).symm))
  rw [hbyte (show w.toNat % 2 ^ 8 = b₀.toNat by omega),
    hbyte (show (w >>> 8).toNat % 2 ^ 8 = b₁.toNat by simp [Nat.shiftRight_eq_div_pow]; omega),
    hbyte (show (w >>> 16).toNat % 2 ^ 8 = b₂.toNat by simp [Nat.shiftRight_eq_div_pow]; omega),
    hbyte (show (w >>> 24).toNat % 2 ^ 8 = b₃.toNat by simp [Nat.shiftRight_eq_div_pow]; omega)]
  simp only [List.foldl_cons, List.foldl_nil, crcByte_eq, zeros_xor, zeros_zeros,
    Nat.reduceAdd, Nat.zero_add]
  ac_rfl

/-! ## Tables -/

/-- `CRC32.polynomial`. -/
def polynomial : UInt32 := 0xEDB88320

/-- A bit of an entry. -/
def entryBit (r : UInt32) : UInt32 := ((r &&& (1 : UInt32)) * polynomial) ^^^ (r >>> 1)

/-- The table for a single byte. -/
def byteTable : List UInt32 :=
  (List.range 256).map fun i => Nat.repeat entryBit 8 (UInt32.ofNat i)

/-- The further entries, each from the one 256 entries before it. -/
def extendTable : Nat → List UInt32 → List UInt32
  | 0, table => table
  | k + 1, table =>
      let value := table.getD (table.length - 256) 0
      extendTable k (table ++ [table.getD (value &&& 0xff).toNat 0 ^^^ (value >>> 8)])

/-- `generateTables`, and the constructor of `CRC32Table`. -/
def generateTables (numTables : Nat) : List UInt32 :=
  extendTable (256 * numTables - 256) byteTable

theorem entryBit_eq (c : UInt32) : entryBit c = crcBit c := by
  unfold entryBit crcBit
  rcases and_one_cases c with h | h
  · rw [h, if_neg (by decide), UInt32.zero_mul, UInt32.zero_xor]
  · rw [h, if_pos rfl, UInt32.one_mul, UInt32.xor_comm]
    rfl

/-- Entry `i` holds what a byte comes to behind the zero bytes of its table. -/
structure Tabulates (table : List UInt32) : Prop where
  size : 256 ≤ table.length
  entry : ∀ i, i < table.length → table.getD i 0 = zeros (i / 256 + 1) (UInt32.ofNat (i % 256))

theorem tabulates_byteTable : Tabulates byteTable := by
  refine ⟨by simp [byteTable], fun i hi => ?_⟩
  have hlt : i < 256 := by simpa [byteTable] using hi
  rw [Nat.div_eq_of_lt hlt, Nat.mod_eq_of_lt hlt, byteTable,
    show entryBit = crcBit from funext entryBit_eq]
  simp [hlt]
  rfl

variable {table : List UInt32}

theorem Tabulates.lookup (h : Tabulates table) (k : Nat) (hk : 256 * k + 256 ≤ table.length)
    (v : UInt32) :
    table.getD (k * 256 + (v &&& 0xff).toNat) 0 = zeros (k + 1) (v &&& 0xff) := by
  have hlt : (v &&& 0xff).toNat < 256 := by
    rw [toNat_lowByte]
    exact Nat.mod_lt _ (by decide)
  rw [h.entry _ (by omega), show (k * 256 + (v &&& 0xff).toNat) / 256 = k by omega,
    show (k * 256 + (v &&& 0xff).toNat) % 256 = (v &&& 0xff).toNat by omega, UInt32.ofNat_toNat]

/-- **One more entry**: what an entry comes to behind one more zero byte. -/
theorem Tabulates.extend (h : Tabulates table) {value : UInt32}
    (hvalue : value = table.getD (table.length - 256) 0) :
    Tabulates (table ++ [table.getD (value &&& 0xff).toNat 0 ^^^ (value >>> 8)]) := by
  have hsize := h.size
  refine ⟨by simp; omega, fun i hi => ?_⟩
  rw [List.length_append, List.length_singleton] at hi
  by_cases hlt : i < table.length
  · rw [List.getD, List.getElem?_append_left hlt]
    exact h.entry i hlt
  · obtain rfl : i = table.length := by omega
    have hlookup := h.lookup 0 (by omega) value
    rw [Nat.zero_mul, Nat.zero_add] at hlookup
    have hzeros : zeros 1 value = zeros 1 (value &&& 0xff) ^^^ (value >>> 8) := zeros_split 0 value
    rw [h.entry _ (by omega)] at hvalue
    rw [List.getD, List.getElem?_concat_length, Option.getD_some, hlookup, Nat.zero_add, ← hzeros,
      hvalue, zeros_zeros, show (table.length - 256) / 256 + 1 = table.length / 256 by omega,
      show (table.length - 256) % 256 = table.length % 256 by omega]

theorem Tabulates.extendTable (h : Tabulates table) (k : Nat) :
    Tabulates (extendTable k table) ∧ (extendTable k table).length = table.length + k := by
  induction k generalizing table with
  | zero => exact ⟨h, rfl⟩
  | succ k ih =>
    obtain ⟨htabulates, hlength⟩ := ih (h.extend rfl)
    refine ⟨htabulates, hlength.trans ?_⟩
    rw [List.length_append, List.length_singleton]
    omega

/-- **The tables hold** what each byte comes to. -/
theorem tabulates_generateTables (numTables : Nat) (h : 0 < numTables) :
    Tabulates (generateTables numTables) ∧ (generateTables numTables).length = 256 * numTables := by
  obtain ⟨htabulates, hlength⟩ := tabulates_byteTable.extendTable (256 * numTables - 256)
  refine ⟨htabulates, hlength.trans ?_⟩
  rw [byteTable, List.length_map, List.length_range]
  omega

/-! ## The updates -/

/-- A byte of input, with the first table. -/
def byteLookup (table : List UInt32) (r : UInt32) (b : UInt8) : UInt32 :=
  table.getD ((r ^^^ b.toUInt32) &&& 0xff).toNat 0 ^^^ (r >>> 8)

/-- The four lookups for a word, from table `k` on. -/
def wordLookup (table : List UInt32) (k : Nat) (v : UInt32) : UInt32 :=
  table.getD (k * 256 + ((v >>> 24) &&& 0xff).toNat) 0 ^^^
    table.getD ((k + 1) * 256 + ((v >>> 16) &&& 0xff).toNat) 0 ^^^
    table.getD ((k + 2) * 256 + ((v >>> 8) &&& 0xff).toNat) 0 ^^^
    table.getD ((k + 3) * 256 + (v &&& 0xff).toNat) 0

/-- A loop that takes `size` bytes at a time, as long as there are as many; what is left is left. -/
def blockLoop (size : Nat) (block : UInt32 → Bytes → UInt32) (r : UInt32) (data : Bytes) :
    UInt32 × Bytes :=
  if _h : 0 < size ∧ size ≤ data.length then
    blockLoop size block (block r (data.take size)) (data.drop size)
  else (r, data)
termination_by data.length
decreasing_by
  rw [List.length_drop]
  omega

namespace Cpp

/-- `CRC32_TABLE`. -/
def CRC32_TABLE : List UInt32 := generateTables 8

/-- The body of the loop over 8 bytes. -/
def update8 (r : UInt32) (block : Bytes) : UInt32 :=
  wordLookup CRC32_TABLE 0 (getUint32LE block 4) ^^^ wordLookup CRC32_TABLE 4 (r ^^^ getUint32LE block 0)

/-- `crc32Update`. -/
def crc32Update (prev : UInt32) (data : Bytes) : UInt32 :=
  if data.length ≤ 8 then data.foldl (byteLookup CRC32_TABLE) prev
  else
    let (r, rest) := blockLoop 8 update8 prev data
    rest.foldl (byteLookup CRC32_TABLE) r

end Cpp

namespace Swift

/-- `CRC32.table`. -/
def crcTable : List UInt32 := generateTables 16

/-- The bytes up to the first address that a `UInt32` may have. -/
def alignedFrom (address : Nat) (state : UInt32) : Bytes → UInt32 × Bytes
  | [] => (state, [])
  | b :: data =>
      if address % 4 = 0 then (state, b :: data)
      else alignedFrom (address + 1) (byteLookup crcTable state b) data

/-- The body of the loop over 16 bytes. -/
def update16 (state : UInt32) (block : Bytes) : UInt32 :=
  wordLookup crcTable 0 (getUint32LE block 12) ^^^ wordLookup crcTable 4 (getUint32LE block 8) ^^^
    wordLookup crcTable 8 (getUint32LE block 4) ^^^ wordLookup crcTable 12 (state ^^^ getUint32LE block 0)

/-- `update16Byte` of data at `basePtr`. -/
def update16Byte (basePtr : Nat) (state : UInt32) (data : Bytes) : UInt32 :=
  let (state, data) := alignedFrom basePtr state data
  if data = [] then state
  else
    let (state, rest) := blockLoop 16 update16 state data
    rest.foldl (byteLookup crcTable) state

end Swift

theorem Tabulates.byteLookup (h : Tabulates table) (r : UInt32) (b : UInt8) :
    byteLookup table r b = crcByte r b := by
  have hlookup := h.lookup 0 (by have := h.size; omega) (r ^^^ b.toUInt32)
  rw [Nat.zero_mul, Nat.zero_add] at hlookup
  have hshift : (r ^^^ b.toUInt32) >>> 8 = r >>> 8 := by
    refine UInt32.toNat_inj.mp ?_
    have hlt := b.toNat_lt
    simp [UInt32.shiftRight_xor, Nat.shiftRight_eq_div_pow, Nat.div_eq_of_lt hlt]
  rw [Mcap.byteLookup, hlookup, crcByte_eq, zeros_split 0 (r ^^^ b.toUInt32), hshift]
  rfl

theorem Tabulates.wordLookup (h : Tabulates table) {k : Nat} (hk : 256 * k + 1024 ≤ table.length)
    (v : UInt32) : wordLookup table k v = zeros (k + 4) v := by
  rw [zeros_word, Mcap.wordLookup, h.lookup _ (by omega), h.lookup _ (by omega), h.lookup _ (by omega),
    h.lookup _ (by omega)]

/-- **A loop over blocks**, each of which is taken byte by byte. -/
theorem foldl_blockLoop {size : Nat} {block : UInt32 → Bytes → UInt32}
    (hblock : ∀ r bytes, bytes.length = size → block r bytes = bytes.foldl crcByte r) (r : UInt32)
    (data : Bytes) : (blockLoop size block r data).2.foldl crcByte (blockLoop size block r data).1 =
      data.foldl crcByte r := by
  induction r, data using blockLoop.induct size block with
  | case1 r data h ih =>
    rw [blockLoop, dif_pos h, ih, hblock r _ (List.length_take_of_le h.2), ← List.foldl_append,
      List.take_append_drop]
  | case2 r data h => rw [blockLoop, dif_neg h]

theorem Tabulates.foldl_byteLookup (h : Tabulates table) (r : UInt32) (data : Bytes) :
    data.foldl (Mcap.byteLookup table) r = data.foldl crcByte r := by
  rw [show Mcap.byteLookup table = crcByte from funext₂ h.byteLookup]

theorem foldl_drop_word (block : Bytes) (offset : Nat) (h : offset + 4 ≤ block.length) (r : UInt32) :
    (block.drop offset).foldl crcByte r =
      (block.drop (offset + 4)).foldl crcByte (zeros 4 (r ^^^ getUint32LE block offset)) := by
  have hdrop : ∀ i, i < block.length → block.drop i = block.getD i 0 :: block.drop (i + 1) := by
    intro i hi
    rw [List.drop_eq_getElem_cons hi, List.getD_eq_getElem?_getD, List.getElem?_eq_getElem hi,
      Option.getD_some]
  rw [← foldl_word, ← List.foldl_append, hdrop offset (by omega), hdrop (offset + 1) (by omega),
    hdrop (offset + 2) (by omega), hdrop (offset + 3) (by omega)]
  rfl

theorem Cpp.update8_eq {block : Bytes} (h : block.length = 8) (r : UInt32) :
    update8 r block = block.foldl crcByte r := by
  obtain ⟨htables, hlength⟩ := tabulates_generateTables 8 (by decide)
  show _ = (block.drop 0).foldl crcByte r
  rw [foldl_drop_word block 0 (by omega), foldl_drop_word block (0 + 4) (by omega),
    List.drop_of_length_le (by omega), update8, CRC32_TABLE, htables.wordLookup (by omega),
    htables.wordLookup (by omega)]
  simp only [List.foldl_nil, zeros_xor, zeros_zeros, Nat.reduceAdd, Nat.zero_add]
  ac_rfl

theorem Swift.update16_eq {block : Bytes} (h : block.length = 16) (state : UInt32) :
    update16 state block = block.foldl crcByte state := by
  obtain ⟨htables, hlength⟩ := tabulates_generateTables 16 (by decide)
  show _ = (block.drop 0).foldl crcByte state
  rw [foldl_drop_word block 0 (by omega), foldl_drop_word block (0 + 4) (by omega),
    foldl_drop_word block (0 + 4 + 4) (by omega), foldl_drop_word block (0 + 4 + 4 + 4) (by omega),
    List.drop_of_length_le (by omega), update16, crcTable, htables.wordLookup (by omega),
    htables.wordLookup (by omega), htables.wordLookup (by omega), htables.wordLookup (by omega)]
  simp only [List.foldl_nil, zeros_xor, zeros_zeros, Nat.reduceAdd, Nat.zero_add]
  ac_rfl

/-- **`crc32Update`** is the update byte by byte. -/
theorem Cpp.crc32Update_eq (prev : UInt32) (data : Bytes) :
    crc32Update prev data = data.foldl crcByte prev := by
  obtain ⟨htables, -⟩ := tabulates_generateTables 8 (by decide)
  unfold crc32Update CRC32_TABLE
  split
  · exact htables.foldl_byteLookup prev data
  · exact (htables.foldl_byteLookup _ _).trans (foldl_blockLoop (fun r _ h => update8_eq h r) prev data)

theorem Swift.foldl_alignedFrom (address : Nat) (state : UInt32) (data : Bytes) :
    (alignedFrom address state data).2.foldl crcByte (alignedFrom address state data).1 =
      data.foldl crcByte state := by
  obtain ⟨htables, -⟩ := tabulates_generateTables 16 (by decide)
  induction data generalizing address state with
  | nil => rfl
  | cons b data ih =>
    rw [alignedFrom]
    split
    · rfl
    · rw [ih, crcTable, htables.byteLookup, List.foldl_cons]

/-- **`update16Byte`** is the update byte by byte, wherever the data are. -/
theorem Swift.update16Byte_eq (basePtr : Nat) (state : UInt32) (data : Bytes) :
    update16Byte basePtr state data = data.foldl crcByte state := by
  obtain ⟨htables, -⟩ := tabulates_generateTables 16 (by decide)
  rw [← foldl_alignedFrom basePtr state data]
  unfold update16Byte
  simp only
  split
  · rename_i hnil
    rw [hnil, List.foldl_nil]
  · exact (htables.foldl_byteLookup _ _).trans (foldl_blockLoop (fun r _ h => update16_eq h r) _ _)

/-- **The fast updates** are the update bit by bit, and data may be given in pieces. -/
theorem fast_updates_exact (c : UInt32) (a b : Bytes) :
    Cpp.crc32Update c a = a.foldl crcByte c ∧
      (∀ basePtr, Swift.update16Byte basePtr c a = a.foldl crcByte c) ∧
      Cpp.crc32Update (Cpp.crc32Update c a) b = Cpp.crc32Update c (a ++ b) ∧
      ∀ p p' p'', Swift.update16Byte p' (Swift.update16Byte p c a) b =
        Swift.update16Byte p'' c (a ++ b) := by
  refine ⟨Cpp.crc32Update_eq c a, fun p => Swift.update16Byte_eq p c a, ?_, fun p p' p'' => ?_⟩
  · rw [Cpp.crc32Update_eq, Cpp.crc32Update_eq, Cpp.crc32Update_eq, List.foldl_append]
  · rw [Swift.update16Byte_eq, Swift.update16Byte_eq, Swift.update16Byte_eq, List.foldl_append]

end Mcap
