import Lsmkv.Coding
import Mathlib.Tactic.IntervalCases

/-!
# CRC-32 by slices of eight (`checksum.rs`)

`update` consumes eight bytes per step through eight tables.  `update_eq_foldl` says that it is
the bit-at-a-time reflected CRC-32 folded over the bytes, whatever the length and the running
checksum: the step `crcStep` of one bit is linear over `^^^`, so `crcBits n` is, table `k` holds
`crcBits (8 (k + 1))` of its index, and a byte shifted up by `n` bits is back at the bottom after
`n` steps.  In consequence `update` splits over `++`, which is what makes the checksum written by
`record::encode` over one slice the one `Replay` computes over two (`crc32Parts_eq`).
-/

namespace Lsmkv

/-- `POLYNOMIAL`. -/
def polynomial : BitVec 32 := 0xEDB88320#32

/-- `INIT`. -/
def crcInit : BitVec 32 := 0xFFFFFFFF#32

/-- One turn of the bit loop of `build_tables`. -/
def crcStep (crc : BitVec 32) : BitVec 32 :=
  if crc &&& 1#32 = 1#32 then (crc >>> 1) ^^^ polynomial else crc >>> 1

/-- `n` turns of the bit loop. -/
def crcBits : ℕ → BitVec 32 → BitVec 32
  | 0, crc => crc
  | n + 1, crc => crcBits n (crcStep crc)

/-- `byte as u32`. -/
def wide (byte : UInt8) : BitVec 32 := byte.toBitVec.setWidth 32

/-- `(crc & 0xFF) as usize`, the index into a table. -/
def lowByte (crc : BitVec 32) : UInt8 := ⟨crc.setWidth 8⟩

/-- `TABLES[k][byte]`, as `build_tables` fills it. -/
def table : ℕ → UInt8 → BitVec 32
  | 0, byte => crcBits 8 (wide byte)
  | k + 1, byte =>
    let carried := table k byte
    (carried >>> 8) ^^^ crcBits 8 (wide (lowByte carried))

/-- One turn of the byte loop at the end of `update`. -/
def updateByte (crc : BitVec 32) (byte : UInt8) : BitVec 32 :=
  (crc >>> 8) ^^^ table 0 (lowByte (crc ^^^ wide byte))

/-- One turn of the eight-byte loop of `update`. -/
def updateSlice (crc : BitVec 32) (b0 b1 b2 b3 b4 b5 b6 b7 : UInt8) : BitVec 32 :=
  let head := crc ^^^ wide b0 ^^^ (wide b1 <<< 8) ^^^ (wide b2 <<< 16) ^^^ (wide b3 <<< 24)
  let tail := wide b4 ||| (wide b5 <<< 8) ||| (wide b6 <<< 16) ||| (wide b7 <<< 24)
  table 7 (lowByte head) ^^^ table 6 (lowByte (head >>> 8)) ^^^ table 5 (lowByte (head >>> 16))
    ^^^ table 4 (lowByte (head >>> 24)) ^^^ table 3 (lowByte tail) ^^^ table 2
      (lowByte (tail >>> 8))
    ^^^ table 1 (lowByte (tail >>> 16)) ^^^ table 0 (lowByte (tail >>> 24))

def update (crc : BitVec 32) : Bytes → BitVec 32
  | b0 :: b1 :: b2 :: b3 :: b4 :: b5 :: b6 :: b7 :: rest =>
    update (updateSlice crc b0 b1 b2 b3 b4 b5 b6 b7) rest
  | rest => rest.foldl updateByte crc

/-- CRC-32 of `bytes`. -/
def crc32 (bytes : Bytes) : ℕ := (~~~update crcInit bytes).toNat

/-- CRC-32 of two chunks read back separately. -/
def crc32Parts (first second : Bytes) : ℕ := (~~~update (update crcInit first) second).toNat

/-! ### The bit step is linear -/

theorem and_one_eq_one_iff (x : BitVec 32) : x &&& 1#32 = 1#32 ↔ x.getLsbD 0 = true := by
  rw [BitVec.and_one_eq_setWidth_ofBool_getLsbD]
  cases x.getLsbD 0 <;> decide

theorem crcStep_eq (x : BitVec 32) :
    crcStep x = (x >>> 1) ^^^ (if x.getLsbD 0 then polynomial else 0#32) := by
  unfold crcStep
  by_cases h : x.getLsbD 0 = true
  · rw [if_pos ((and_one_eq_one_iff x).mpr h), if_pos h]
  · rw [if_neg (mt (and_one_eq_one_iff x).mp h), if_neg h, BitVec.xor_zero]

theorem crcStep_xor (x y : BitVec 32) : crcStep (x ^^^ y) = crcStep x ^^^ crcStep y := by
  rw [crcStep_eq, crcStep_eq, crcStep_eq, BitVec.ushiftRight_xor_distrib, BitVec.getLsbD_xor]
  cases hx : x.getLsbD 0 <;> cases hy : y.getLsbD 0 <;>
    simp only [Bool.xor_false, Bool.xor_true, Bool.not_false, Bool.not_true, Bool.false_eq_true,
      ↓reduceIte, BitVec.xor_zero]
  · rw [BitVec.xor_assoc]
  · rw [BitVec.xor_assoc, BitVec.xor_comm _ polynomial, ← BitVec.xor_assoc]
  · rw [BitVec.xor_assoc, BitVec.xor_comm polynomial, BitVec.xor_assoc, BitVec.xor_self,
      BitVec.xor_zero]

theorem crcBits_xor (n : ℕ) (x y : BitVec 32) :
    crcBits n (x ^^^ y) = crcBits n x ^^^ crcBits n y := by
  induction n generalizing x y with
  | zero => rfl
  | succ n ih => rw [crcBits, crcBits, crcBits, crcStep_xor, ih]

theorem crcBits_add (m n : ℕ) (x : BitVec 32) : crcBits (m + n) x = crcBits n (crcBits m x) := by
  induction m generalizing x with
  | zero => rw [Nat.zero_add, crcBits]
  | succ m ih => rw [Nat.succ_add, crcBits, crcBits, ih]

/-- A value with `n` free bits on top, shifted up by `n`, is back at the bottom after `n` steps:
no step sees a set low bit, so no step mixes the polynomial in. -/
theorem crcBits_shiftLeft {n : ℕ} {x : BitVec 32} (h : ∀ i, 32 ≤ i + n → x.getLsbD i = false) :
    crcBits n (x <<< n) = x := by
  induction n with
  | zero => rw [crcBits, BitVec.shiftLeft_zero]
  | succ n ih =>
    have hlow : (x <<< (n + 1)).getLsbD 0 = false := by
      rw [BitVec.getLsbD_shiftLeft]
      simp
    have hstep : crcStep (x <<< (n + 1)) = x <<< n := by
      rw [crcStep_eq, hlow, if_neg (by decide), BitVec.xor_zero]
      apply BitVec.eq_of_getLsbD_eq
      intro i hi
      rw [BitVec.getLsbD_ushiftRight, BitVec.getLsbD_shiftLeft, BitVec.getLsbD_shiftLeft]
      rw [Nat.add_comm 1 i]
      by_cases hlast : i + 1 < 32
      · simp only [hlast, hi, decide_true, Bool.true_and,
          Nat.add_lt_add_iff_right, Nat.add_sub_add_right]
      · have hx : x.getLsbD (i - n) = false := h _ (by omega)
        simp [hlast, hx]
    rw [crcBits, hstep]
    exact ih fun i hi => h i (by omega)

/-! ### The tables -/

theorem getLsbD_wide (byte : UInt8) (i : ℕ) : (wide byte).getLsbD i = byte.toBitVec.getLsbD i := by
  unfold wide
  rw [BitVec.getLsbD_setWidth]
  by_cases hi : i < 32
  · simp [hi]
  · simp [hi, BitVec.getLsbD_of_ge _ i (by omega : 8 ≤ i)]

theorem getLsbD_wide_lowByte (x : BitVec 32) (i : ℕ) :
    (wide (lowByte x)).getLsbD i = (decide (i < 8) && x.getLsbD i) := by
  rw [getLsbD_wide, lowByte, BitVec.getLsbD_setWidth]

theorem getLsbD_wide_of_le (byte : UInt8) {i : ℕ} (hi : 8 ≤ i) : (wide byte).getLsbD i = false := by
  rw [getLsbD_wide, BitVec.getLsbD_of_ge _ i hi]

/-- A word is its high part shifted back up, with its low byte. -/
theorem xor_lowByte (x : BitVec 32) : x = ((x >>> 8) <<< 8) ^^^ wide (lowByte x) := by
  apply BitVec.eq_of_getLsbD_eq
  intro i hi
  rw [BitVec.getLsbD_xor, getLsbD_wide_lowByte, BitVec.getLsbD_shiftLeft,
    BitVec.getLsbD_ushiftRight]
  by_cases h8 : i < 8
  · simp [h8]
  · simp [h8, hi, show 8 + (i - 8) = i by omega]

/-- The byte-at-a-time step is eight bit steps. -/
theorem crcBits_eight (x : BitVec 32) :
    crcBits 8 x = (x >>> 8) ^^^ crcBits 8 (wide (lowByte x)) := by
  conv_lhs => rw [xor_lowByte x, crcBits_xor]
  congr 1
  apply crcBits_shiftLeft
  intro i hi
  rw [BitVec.getLsbD_ushiftRight, BitVec.getLsbD_of_ge]
  omega

theorem table_eq (k : ℕ) (byte : UInt8) : table k byte = crcBits (8 * (k + 1)) (wide byte) := by
  induction k with
  | zero => rfl
  | succ k ih =>
    rw [table, Nat.mul_succ, crcBits_add, ih]
    exact (crcBits_eight _).symm

theorem updateByte_eq (crc : BitVec 32) (byte : UInt8) :
    updateByte crc byte = crcBits 8 (crc ^^^ wide byte) := by
  have hshift : (crc ^^^ wide byte) >>> 8 = crc >>> 8 := by
    apply BitVec.eq_of_getLsbD_eq
    intro i hi
    rw [BitVec.getLsbD_ushiftRight, BitVec.getLsbD_ushiftRight, BitVec.getLsbD_xor,
      getLsbD_wide_of_le byte (by omega), Bool.xor_false]
  rw [updateByte, crcBits_eight, hshift, table]

/-! ### Eight bytes at once -/

/-- A byte at position `8 j` of a word reaches the bottom after `8 j` steps. -/
theorem crcBits_wide_shiftLeft (byte : UInt8) {m n : ℕ} (hn : n ≤ 24) :
    crcBits (n + m) (wide byte <<< n) = crcBits m (wide byte) := by
  rw [crcBits_add, crcBits_shiftLeft]
  intro i hi
  exact getLsbD_wide_of_le byte (by omega)

/-- A word is the sum of its four bytes. -/
theorem xor_bytes (x : BitVec 32) :
    x = wide (lowByte x) ^^^ (wide (lowByte (x >>> 8)) <<< 8)
      ^^^ (wide (lowByte (x >>> 16)) <<< 16) ^^^ (wide (lowByte (x >>> 24)) <<< 24) := by
  apply BitVec.eq_of_getLsbD_eq
  intro i hi
  simp only [BitVec.getLsbD_xor, BitVec.getLsbD_shiftLeft, getLsbD_wide_lowByte,
    BitVec.getLsbD_ushiftRight, hi, decide_true, Bool.true_and]
  by_cases h8 : i < 8
  · simp [h8, show i < 16 by omega, show i < 24 by omega]
  by_cases h16 : i < 16
  · simp [h8, h16, show i < 24 by omega, show i - 8 < 8 by omega, show 8 + (i - 8) = i by omega]
  by_cases h24 : i < 24
  · simp [h8, h16, h24, show ¬i - 8 < 8 by omega, show i - 16 < 8 by omega,
      show 16 + (i - 16) = i by omega]
  · simp [h8, h16, h24, show ¬i - 8 < 8 by omega, show ¬i - 16 < 8 by omega,
      show i - 24 < 8 by omega, show 24 + (i - 24) = i by omega]

/-- Sixty-four steps of a word, byte by byte: the four lookups of the running checksum. -/
theorem crcBits_word (x : BitVec 32) :
    crcBits 64 x = table 7 (lowByte x) ^^^ table 6 (lowByte (x >>> 8))
      ^^^ table 5 (lowByte (x >>> 16)) ^^^ table 4 (lowByte (x >>> 24)) := by
  conv_lhs => rw [xor_bytes x]
  rw [crcBits_xor, crcBits_xor, crcBits_xor, table_eq, table_eq, table_eq, table_eq,
    show 64 = 8 + 56 by rfl, crcBits_wide_shiftLeft _ (by decide),
    show 8 + 56 = 16 + 48 by rfl, crcBits_wide_shiftLeft _ (by decide),
    show 16 + 48 = 24 + 40 by rfl, crcBits_wide_shiftLeft _ (by decide)]

theorem lowByte_eq {x : BitVec 32} {byte : UInt8}
    (h : ∀ i, i < 8 → x.getLsbD i = byte.toBitVec.getLsbD i) : lowByte x = byte := by
  apply UInt8.toBitVec_inj.mp
  apply BitVec.eq_of_getLsbD_eq
  intro i hi
  rw [lowByte, BitVec.getLsbD_setWidth, h i hi, decide_eq_true hi, Bool.true_and]

theorem getLsbD_wide_shiftLeft (byte : UInt8) (n : ℕ) {i : ℕ} (hi : i < 32) :
    (wide byte <<< n).getLsbD i = (decide (n ≤ i) && byte.toBitVec.getLsbD (i - n)) := by
  rw [BitVec.getLsbD_shiftLeft, getLsbD_wide, decide_eq_true hi, Bool.true_and, ← decide_not,
    decide_eq_decide.mpr (Nat.not_lt : ¬i < n ↔ n ≤ i)]

/-- The bytes of the second word are looked up as they are. -/
theorem lowByte_word (b0 b1 b2 b3 : UInt8) :
    let word := wide b0 ||| (wide b1 <<< 8) ||| (wide b2 <<< 16) ||| (wide b3 <<< 24)
    lowByte word = b0 ∧ lowByte (word >>> 8) = b1 ∧ lowByte (word >>> 16) = b2
      ∧ lowByte (word >>> 24) = b3 := by
  have hbit : ∀ i, i < 32 →
      (wide b0 ||| (wide b1 <<< 8) ||| (wide b2 <<< 16) ||| (wide b3 <<< 24)).getLsbD i
        = (b0.toBitVec.getLsbD i || decide (8 ≤ i) && b1.toBitVec.getLsbD (i - 8)
        || decide (16 ≤ i) && b2.toBitVec.getLsbD (i - 16)
        || decide (24 ≤ i) && b3.toBitVec.getLsbD (i - 24)) := by
    intro i hi
    rw [BitVec.getLsbD_or, BitVec.getLsbD_or, BitVec.getLsbD_or, getLsbD_wide,
      getLsbD_wide_shiftLeft _ _ hi, getLsbD_wide_shiftLeft _ _ hi, getLsbD_wide_shiftLeft _ _ hi]
  -- of the four bytes, one reaches each place, and the others are zero there
  have hout : ∀ (byte : UInt8) (i : ℕ), 8 ≤ i → byte.toBitVec.getLsbD i = false :=
    fun byte i hi => BitVec.getLsbD_of_ge _ i hi
  refine ⟨lowByte_eq fun i hi => ?_, lowByte_eq fun i hi => ?_, lowByte_eq fun i hi => ?_,
    lowByte_eq fun i hi => ?_⟩
  · rw [hbit i (by omega)]
    simp [show ¬8 ≤ i by omega, show ¬16 ≤ i by omega, show ¬24 ≤ i by omega]
  · rw [BitVec.getLsbD_ushiftRight, hbit _ (by omega), hout b0 _ (by omega)]
    simp [show ¬16 ≤ 8 + i by omega, show ¬24 ≤ 8 + i by omega]
  · rw [BitVec.getLsbD_ushiftRight, hbit _ (by omega), hout b0 _ (by omega), hout b1 _ (by omega)]
    simp [show ¬24 ≤ 16 + i by omega]
  · rw [BitVec.getLsbD_ushiftRight, hbit _ (by omega), hout b0 _ (by omega), hout b1 _ (by omega),
      hout b2 _ (by omega)]
    simp

theorem updateSlice_eq (crc : BitVec 32) (b0 b1 b2 b3 b4 b5 b6 b7 : UInt8) :
    updateSlice crc b0 b1 b2 b3 b4 b5 b6 b7
      = [b0, b1, b2, b3, b4, b5, b6, b7].foldl updateByte crc := by
  have hhead : crcBits 64 (crc ^^^ wide b0 ^^^ (wide b1 <<< 8) ^^^ (wide b2 <<< 16)
      ^^^ (wide b3 <<< 24)) = crcBits 64 crc ^^^ crcBits 64 (wide b0) ^^^ crcBits 56 (wide b1)
        ^^^ crcBits 48 (wide b2) ^^^ crcBits 40 (wide b3) := by
    rw [crcBits_xor, crcBits_xor, crcBits_xor, crcBits_xor,
      show crcBits 64 (wide b1 <<< 8) = crcBits 56 (wide b1) from
        crcBits_wide_shiftLeft b1 (m := 56) (by decide),
      show crcBits 64 (wide b2 <<< 16) = crcBits 48 (wide b2) from
        crcBits_wide_shiftLeft b2 (m := 48) (by decide),
      show crcBits 64 (wide b3 <<< 24) = crcBits 40 (wide b3) from
        crcBits_wide_shiftLeft b3 (m := 40) (by decide)]
  obtain ⟨h4, h5, h6, h7⟩ := lowByte_word b4 b5 b6 b7
  unfold updateSlice
  dsimp only
  rw [h4, h5, h6, h7, ← crcBits_word, hhead]
  simp only [List.foldl_cons, List.foldl_nil, updateByte_eq, crcBits_xor, ← crcBits_add, table_eq]

/-- **Slice-by-eight is the bit-at-a-time CRC**, for every running checksum and every length. -/
theorem update_eq_foldl (crc : BitVec 32) (bytes : Bytes) :
    update crc bytes = bytes.foldl (fun c b => crcBits 8 (c ^^^ wide b)) crc := by
  have hstep : (fun c b => crcBits 8 (c ^^^ wide b)) = updateByte := by
    funext c b
    exact (updateByte_eq c b).symm
  rw [hstep]
  fun_induction update crc bytes with
  | case1 crc b0 b1 b2 b3 b4 b5 b6 b7 rest ih =>
    rw [ih, updateSlice_eq]
    rfl
  | case2 crc rest => rfl

theorem update_append (crc : BitVec 32) (first second : Bytes) :
    update crc (first ++ second) = update (update crc first) second := by
  simp only [update_eq_foldl, List.foldl_append]

theorem crc32Parts_eq (first second : Bytes) :
    crc32Parts first second = crc32 (first ++ second) := by
  rw [crc32Parts, crc32, update_append]

theorem crc32_lt (bytes : Bytes) : crc32 bytes < u32Limit := BitVec.isLt _

example : crc32 [0x31, 0x32, 0x33, 0x34, 0x35, 0x36, 0x37, 0x38, 0x39] = 0xCBF43926 := by
  decide +kernel

end Lsmkv
