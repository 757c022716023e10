import Lsmkv.Checksum

/-!
# The checksum, bit by bit

The reference is the register of CRC-32 fed one bit at a time, the bits of a byte least significant
first (`crcBit`).  `update_reference` says that `update` computes it.

The register keeps what it is fed: a step is injective, because the polynomial has its top bit set
and a shifted register has not (`crcStep_injective`).  So thirty-two bits that differ leave it in
different states (`foldl_crcBit_ne`), and a block carries its own checksum exactly if the register
ends in one fixed state (`crc32_eq_iff`).
-/

namespace Lsmkv

/-- The bits of a byte, least significant first. -/
def byteBits (byte : UInt8) : List Bool := (List.range 8).map byte.toBitVec.getLsbD

/-- The bits of a byte string. -/
def bits (bytes : Bytes) : List Bool := bytes.flatMap byteBits

/-- A bit as a word. -/
def bitWord (bit : Bool) : BitVec 32 := if bit then 1#32 else 0#32

/-- One bit into the register. -/
def crcBit (crc : BitVec 32) (bit : Bool) : BitVec 32 := crcStep (crc ^^^ bitWord bit)

/-- Bits as a word, the first one lowest. -/
def word : List Bool → BitVec 32
  | [] => 0#32
  | bit :: bits => bitWord bit ^^^ (word bits <<< 1)

/-! ### Bits and words -/

theorem getLsbD_bitWord (bit : Bool) (i : ℕ) :
    (bitWord bit).getLsbD i = (decide (i = 0) && bit) := by
  cases bit with
  | false => rw [bitWord, if_neg Bool.false_ne_true, BitVec.getLsbD_zero, Bool.and_false]
  | true => rw [bitWord, if_pos rfl, BitVec.getLsbD_one, Bool.and_true]; simp

theorem getLsbD_word (l : List Bool) {i : ℕ} (hi : i < 32) :
    (word l).getLsbD i = l[i]?.getD false := by
  induction l generalizing i with
  | nil => rw [word, BitVec.getLsbD_zero, List.getElem?_nil, Option.getD_none]
  | cons bit l ih =>
    rw [word, BitVec.getLsbD_xor, getLsbD_bitWord, BitVec.getLsbD_shiftLeft]
    cases i with
    | zero => simp
    | succ i =>
      rw [Nat.add_sub_cancel, ih (by omega), List.getElem?_cons_succ]
      simp [hi]

theorem word_injective {l l' : List Bool} (hlen : l.length = l'.length) (hle : l.length ≤ 32)
    (h : word l = word l') : l = l' := by
  apply List.ext_getElem hlen
  intro i hi hi'
  have hbit := congrArg (fun x => x.getLsbD i) h
  rwa [getLsbD_word l (by omega), getLsbD_word l' (by omega), List.getElem?_eq_getElem hi,
    List.getElem?_eq_getElem hi', Option.getD_some, Option.getD_some] at hbit

theorem length_byteBits (byte : UInt8) : (byteBits byte).length = 8 := by
  rw [byteBits, List.length_map, List.length_range]

theorem length_bits (bytes : Bytes) : (bits bytes).length = 8 * bytes.length := by
  rw [bits, List.length_flatMap]
  simp [length_byteBits, Nat.mul_comm]

theorem word_byteBits (byte : UInt8) : word (byteBits byte) = wide byte := by
  apply BitVec.eq_of_getLsbD_eq
  intro i hi
  rw [getLsbD_word _ hi, getLsbD_wide, byteBits, List.getElem?_map]
  by_cases h8 : i < 8
  · rw [List.getElem?_range h8, Option.map_some, Option.getD_some]
  · rw [List.getElem?_eq_none (by rw [List.length_range]; omega), Option.map_none, Option.getD_none,
      BitVec.getLsbD_of_ge _ i (by omega)]

/-! ### The register -/

/-- As many bits as the register holds can be put into it first and shifted out afterwards. -/
theorem foldl_crcBit (crc : BitVec 32) {l : List Bool} (hle : l.length ≤ 32) :
    l.foldl crcBit crc = crcBits l.length (crc ^^^ word l) := by
  induction l generalizing crc with
  | nil => rw [word, BitVec.xor_zero]; rfl
  | cons bit l ih =>
    rw [List.length_cons] at hle
    -- the bits behind the first are shifted down with it
    have hshift : crcStep (word l <<< 1) = word l := by
      have hfree : ∀ i, 32 ≤ i + 1 → (word l).getLsbD i = false := by
        intro i hi
        by_cases h32 : i < 32
        · rw [getLsbD_word l h32, List.getElem?_eq_none (by omega), Option.getD_none]
        · exact BitVec.getLsbD_of_ge _ i (by omega)
      exact crcBits_shiftLeft (n := 1) hfree
    rw [List.foldl_cons, ih _ (by omega), List.length_cons, crcBits, word, ← BitVec.xor_assoc,
      crcStep_xor, hshift, crcBit]

/-- The reference, byte by byte. -/
theorem foldl_crcBit_bits (crc : BitVec 32) (bytes : Bytes) :
    (bits bytes).foldl crcBit crc = update crc bytes := by
  rw [update_eq_foldl]
  induction bytes generalizing crc with
  | nil => rfl
  | cons byte bytes ih =>
    have hlen := length_byteBits byte
    rw [bits, List.flatMap_cons, List.foldl_append, ← bits, ih, List.foldl_cons,
      foldl_crcBit crc (by omega), hlen, word_byteBits]

/-- **Slice-by-eight is the reference**: the eight tables compute the register fed bit by bit, and
the version that takes a byte at a time.  So a checksum of two chunks is that of both together. -/
theorem update_reference :
    (∀ crc bytes, update crc bytes = (bits bytes).foldl crcBit crc
        ∧ update crc bytes = bytes.foldl updateByte crc)
      ∧ ∀ first second, crc32Parts first second = crc32 (first ++ second) := by
  refine ⟨fun crc bytes => ⟨(foldl_crcBit_bits crc bytes).symm, ?_⟩, crc32Parts_eq⟩
  rw [update_eq_foldl]
  congr 1
  funext crc byte
  rw [updateByte_eq]

theorem crcStep_eq_zero {x : BitVec 32} (h : crcStep x = 0#32) : x = 0#32 := by
  rw [crcStep_eq] at h
  have hbits : ∀ i, (x >>> 1 ^^^ if x.getLsbD 0 then polynomial else 0#32).getLsbD i = false := by
    intro i
    rw [h, BitVec.getLsbD_zero]
  have hlow : x.getLsbD 0 = false := by
    by_contra hset
    rw [Bool.not_eq_false] at hset
    -- the top bit of the polynomial has nothing to cancel it
    have htop := hbits 31
    rw [hset, if_pos rfl, BitVec.getLsbD_xor, BitVec.getLsbD_ushiftRight,
      BitVec.getLsbD_of_ge x _ (by decide)] at htop
    exact absurd htop (by decide)
  apply BitVec.eq_of_getLsbD_eq
  intro i hi
  rw [BitVec.getLsbD_zero]
  cases i with
  | zero => exact hlow
  | succ i =>
    have hbit := hbits i
    rwa [hlow, if_neg Bool.false_ne_true, BitVec.xor_zero, BitVec.getLsbD_ushiftRight,
      Nat.add_comm] at hbit

theorem crcStep_injective : Function.Injective crcStep := by
  intro x y h
  have hzero : crcStep (x ^^^ y) = 0#32 := by rw [crcStep_xor, h, BitVec.xor_self]
  exact BitVec.xor_eq_zero_iff.mp (crcStep_eq_zero hzero)

theorem crcBits_injective (n : ℕ) : Function.Injective (crcBits n) := by
  induction n with
  | zero => exact Function.injective_id
  | succ n ih => exact ih.comp crcStep_injective

theorem xor_left_injective (x : BitVec 32) : Function.Injective (x ^^^ ·) := by
  intro y z h
  have hxor := congrArg (x ^^^ ·) h
  simpa only [← BitVec.xor_assoc, BitVec.xor_self, BitVec.zero_xor] using hxor

/-- The same bits keep different registers apart. -/
theorem foldl_crcBit_injective (l : List Bool) :
    Function.Injective fun crc => l.foldl crcBit crc := by
  induction l with
  | nil => exact Function.injective_id
  | cons bit l ih =>
    refine ih.comp fun x y h => ?_
    have hxor := crcStep_injective h
    rw [BitVec.xor_comm x, BitVec.xor_comm y] at hxor
    exact xor_left_injective _ hxor

/-- **Two messages that differ only within thirty-two bits** leave the register in different
states. -/
theorem foldl_crcBit_ne (crc : BitVec 32) (before after : List Bool) {l l' : List Bool}
    (hlen : l.length = l'.length) (hle : l.length ≤ 32) (hne : l ≠ l') :
    (before ++ l ++ after).foldl crcBit crc ≠ (before ++ l' ++ after).foldl crcBit crc := by
  intro h
  rw [List.foldl_append, List.foldl_append, List.foldl_append, List.foldl_append] at h
  have hwindow := foldl_crcBit_injective after h
  generalize before.foldl crcBit crc = state at hwindow
  have hle' : l'.length ≤ 32 := hlen ▸ hle
  rw [foldl_crcBit state hle, foldl_crcBit state hle', hlen] at hwindow
  have hword := xor_left_injective _ (crcBits_injective _ hwindow)
  exact hne (word_injective hlen hle hword)

/-! ### The checksum as part of the message -/

theorem testBit_ofLeBytes (bytes : Bytes) (i : ℕ) :
    (ofLeBytes bytes).testBit i = (bits bytes)[i]?.getD false := by
  induction bytes generalizing i with
  | nil => rw [ofLeBytes, Nat.zero_testBit]; rfl
  | cons byte bytes ih =>
    have hbyte : byte.toNat < 2 ^ 8 := byte.toNat_lt
    have hlen := length_byteBits byte
    rw [ofLeBytes, Nat.add_comm, show 256 = 2 ^ 8 by rfl, Nat.testBit_two_pow_mul_add _ hbyte, bits,
      List.flatMap_cons, ← bits]
    split_ifs with h8
    · rw [List.getElem?_append_left (by omega), byteBits, List.getElem?_map, List.getElem?_range h8]
      rfl
    · rw [List.getElem?_append_right (by omega), hlen, ih]

theorem toNat_word_bits {tail : Bytes} (h : tail.length = 4) :
    (word (bits tail)).toNat = ofLeBytes tail := by
  apply Nat.eq_of_testBit_eq
  intro i
  rw [testBit_ofLeBytes, BitVec.testBit_toNat]
  by_cases hi : i < 32
  · rw [getLsbD_word _ hi]
  · rw [BitVec.getLsbD_of_ge _ i (by omega),
      List.getElem?_eq_none (by rw [length_bits, h]; omega), Option.getD_none]

/-- **A checksum that is read on as part of the message** leaves the register in one fixed state,
and nothing else in its place does. -/
theorem crc32_eq_iff (body : Bytes) {tail : Bytes} (h : tail.length = 4) :
    crc32 body = ofLeBytes tail
      ↔ update crcInit (body ++ tail) = crcBits 32 (BitVec.allOnes 32) := by
  have hlen : (bits tail).length = 32 := by rw [length_bits, h]
  rw [update_append, ← foldl_crcBit_bits _ tail, foldl_crcBit _ hlen.le, hlen,
    (crcBits_injective 32).eq_iff, crc32, ← toNat_word_bits h, BitVec.toNat_inj,
    ← BitVec.xor_allOnes]
  generalize update crcInit body = state
  constructor
  · intro heq
    rw [← heq, ← BitVec.xor_assoc, BitVec.xor_self, BitVec.zero_xor]
  · intro heq
    rw [← heq, ← BitVec.xor_assoc, BitVec.xor_self, BitVec.zero_xor]

end Lsmkv
