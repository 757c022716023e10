import Lsmkv.Coding
import Mathlib.Data.Nat.Bitwise
import Mathlib.Tactic.IntervalCases

/-!
# The Bloom filter (`bloom.rs`)

A filter is a bit array with the number of probes in its last byte.  A key is hashed once; the two
halves of the hash give the first probe and the step, and `probeBits` lists the bits they lead to.
Building sets those bits for every hash and a lookup tests them, so a filter never misses a hash it
was built over (`mayContainHash_build`), whatever its size and however often a probe wraps.

The probes stay inside the array (`probeBits_lt`), which is what keeps the two index expressions
`data[bit / 8]` of the source from panicking.
-/

namespace Lsmkv

/-- Membership by bits.  The probe count is the last byte of `data`. -/
structure Bloom where
  data : Bytes
  deriving DecidableEq, Repr

namespace Bloom

/-- `BITS_PER_KEY`. -/
def bitsPerKey : ℕ := 10

/-- `MIN_BITS`. -/
def minBits : ℕ := 64

/-- Probe count that minimizes false positives at this density. -/
def optimalProbes (bitsPerKey : ℕ) : UInt8 :=
  UInt8.ofNat (max 1 (min ((bitsPerKey * 69315 + 50000) / 100000) 30))

/-- Splits one hash into the two the probe sequence walks with. -/
def split (keyHash : UInt64) : UInt32 × UInt32 :=
  (keyHash.toUInt32, (keyHash >>> 32).toUInt32 ||| 1)

/-- Bit count as the probe arithmetic sees it, capped at `u32::MAX`. -/
def bitLen (bytes : ℕ) : UInt32 :=
  if bytes * 8 < u32Limit then UInt32.ofNat (bytes * 8) else UInt32.ofNat (u32Limit - 1)

/-- Hashes a key: FNV-1a over the bytes, finished with a mixer. -/
def hash (key : Bytes) : UInt64 :=
  let state : UInt64 :=
    key.foldl (fun state byte => (state ^^^ byte.toUInt64) * 0x00000100000001b3) 0xcbf29ce484222325
  let state := (state ^^^ (state >>> 30)) * 0xbf58476d1ce4e5b9
  let state := (state ^^^ (state >>> 27)) * 0x94d049bb133111eb
  state ^^^ (state >>> 31)

/-- The bits of a probe sequence.  Its positions wrap. -/
def probeBits (bitLen : UInt32) : ℕ → UInt32 → UInt32 → List ℕ
  | 0, _, _ => []
  | probes + 1, position, step =>
    (position % bitLen).toNat :: probeBits bitLen probes (position + step) step

/-- The bits a hash leads to in an array of so many bytes. -/
def bitsOf (bytes : ℕ) (probes : UInt8) (keyHash : UInt64) : List ℕ :=
  let (position, step) := split keyHash
  probeBits (bitLen bytes) probes.toNat position step

/-- `data[bit / 8] |= 1 << (bit % 8)`. -/
def setBit (data : Bytes) (bit : ℕ) : Bytes :=
  data.modify (bit / 8) (· ||| (1 <<< UInt8.ofNat (bit % 8)))

/-- `data[bit / 8] & (1 << (bit % 8)) != 0`. -/
def testBit (data : Bytes) (bit : ℕ) : Bool :=
  (data[bit / 8]?).any fun byte => byte &&& (1 <<< UInt8.ofNat (bit % 8)) ≠ 0

/-- Bytes of the bit array over so many keys. -/
def bytesFor (count bitsPerKey : ℕ) : ℕ := (max (count * bitsPerKey) minBits + 7) / 8

/-- Builds a filter over key hashes. -/
def build (hashes : List UInt64) (bitsPerKey : ℕ) : Bloom :=
  let probes := optimalProbes bitsPerKey
  let bytes := bytesFor hashes.length bitsPerKey
  let data := hashes.foldl (fun data keyHash => (bitsOf bytes probes keyHash).foldl setBit data)
    (List.replicate (bytes + 1) 0)
  ⟨data.set bytes probes⟩

/-- Reads a filter back, or `none` if the bytes cannot describe one. -/
def decode (bytes : Bytes) : Option Bloom :=
  match bytes.getLast? with
  | none => none
  | some probes => if bytes.length < 2 ∨ probes = 0 then none else some ⟨bytes⟩

/-- Probes each lookup performs. -/
def probes (filter : Bloom) : UInt8 := filter.data.getLast?.getD 0

/-- Whether a key with this hash may be in the set. -/
def mayContainHash (filter : Bloom) (keyHash : UInt64) : Bool :=
  (bitsOf (filter.data.length - 1) filter.probes keyHash).all (testBit filter.data)

/-- Whether `key` may be in the set. -/
def mayContain (filter : Bloom) (key : Bytes) : Bool := filter.mayContainHash (hash key)

/-! ### Single bits -/

theorem toNat_one_shiftLeft {k : ℕ} (hk : k < 8) :
    ((1 : UInt8) <<< UInt8.ofNat k).toNat = 2 ^ k := by
  interval_cases k <;> rfl

theorem and_shiftLeft_ne_zero_iff (byte : UInt8) {k : ℕ} (hk : k < 8) :
    byte &&& (1 <<< UInt8.ofNat k) ≠ 0 ↔ byte.toNat.testBit k = true := by
  rw [ne_eq, ← UInt8.toNat_inj, UInt8.toNat_and, toNat_one_shiftLeft hk, Nat.and_two_pow]
  cases byte.toNat.testBit k <;> simp

theorem testBit_iff {data : Bytes} {bit : ℕ} : testBit data bit = true
    ↔ ∃ byte, data[bit / 8]? = some byte ∧ byte.toNat.testBit (bit % 8) = true := by
  have hk : bit % 8 < 8 := Nat.mod_lt _ (by decide)
  unfold testBit
  rw [Option.any_eq_true]
  refine exists_congr fun byte => and_congr_right fun _ => ?_
  rw [decide_eq_true_iff, and_shiftLeft_ne_zero_iff byte hk]

theorem length_setBit (data : Bytes) (bit : ℕ) : (setBit data bit).length = data.length :=
  List.length_modify _ _ _

/-- A bit inside the array is set. -/
theorem testBit_setBit_self {data : Bytes} {bit : ℕ} (h : bit / 8 < data.length) :
    testBit (setBit data bit) bit = true := by
  have hk : bit % 8 < 8 := Nat.mod_lt _ (by decide)
  rw [testBit_iff]
  refine ⟨data[bit / 8] ||| (1 <<< UInt8.ofNat (bit % 8)), ?_, ?_⟩
  · rw [setBit, List.getElem?_modify_eq, List.getElem?_eq_getElem h]
    rfl
  · rw [UInt8.toNat_or, toNat_one_shiftLeft hk, Nat.testBit_or, Nat.testBit_two_pow_self,
      Bool.or_true]

/-- No bit is ever cleared. -/
theorem testBit_setBit {data : Bytes} {bit : ℕ} (other : ℕ) (h : testBit data bit = true) :
    testBit (setBit data other) bit = true := by
  rw [testBit_iff] at h ⊢
  obtain ⟨byte, hbyte, hset⟩ := h
  by_cases hsame : other / 8 = bit / 8
  · refine ⟨byte ||| (1 <<< UInt8.ofNat (other % 8)), ?_, ?_⟩
    · rw [setBit, hsame, List.getElem?_modify_eq, hbyte]
      rfl
    · rw [UInt8.toNat_or, Nat.testBit_or, hset, Bool.true_or]
  · refine ⟨byte, ?_, hset⟩
    rw [setBit, List.getElem?_modify_ne _ _ hsame, hbyte]

/-! ### Probe sequences -/

theorem bitLen_spec {bytes : ℕ} (h : 0 < bytes) :
    0 < (bitLen bytes).toNat ∧ (bitLen bytes).toNat ≤ bytes * 8 := by
  unfold bitLen
  split_ifs with hlt
  · rw [UInt32.toNat_ofNat_of_lt' hlt]
    omega
  · rw [UInt32.toNat_ofNat_of_lt' (by decide)]
    unfold u32Limit at *
    omega

theorem probeBits_lt {bitLen : UInt32} (h : 0 < bitLen.toNat) {probes : ℕ} {position step : UInt32}
    {bit : ℕ} (hbit : bit ∈ probeBits bitLen probes position step) : bit < bitLen.toNat := by
  induction probes generalizing position with
  | zero => cases hbit
  | succ probes ih =>
    rcases List.mem_cons.mp hbit with rfl | hbit
    · rw [UInt32.toNat_mod]
      exact Nat.mod_lt _ h
    · exact ih hbit

/-- **Every probe is inside the array.** -/
theorem bitsOf_lt {bytes : ℕ} (h : 0 < bytes) {probes : UInt8} {keyHash : UInt64} {bit : ℕ}
    (hbit : bit ∈ bitsOf bytes probes keyHash) : bit / 8 < bytes := by
  obtain ⟨hpos, hle⟩ := bitLen_spec h
  have := probeBits_lt hpos hbit
  omega

/-! ### No false negatives -/

theorem length_foldl_setBit (bits : List ℕ) (data : Bytes) :
    (bits.foldl setBit data).length = data.length := by
  induction bits generalizing data with
  | nil => rfl
  | cons bit bits ih => rw [List.foldl_cons, ih, length_setBit]

theorem testBit_foldl_setBit {data : Bytes} (bits : List ℕ) {bit : ℕ}
    (h : testBit data bit = true) : testBit (bits.foldl setBit data) bit = true := by
  induction bits generalizing data with
  | nil => exact h
  | cons other bits ih => exact ih (testBit_setBit other h)

theorem testBit_foldl_setBit_of_mem {data : Bytes} {bits : List ℕ} {bit : ℕ} (hbit : bit ∈ bits)
    (h : bit / 8 < data.length) : testBit (bits.foldl setBit data) bit = true := by
  induction bits generalizing data with
  | nil => cases hbit
  | cons other bits ih =>
    rcases List.mem_cons.mp hbit with rfl | hbit
    · exact testBit_foldl_setBit bits (testBit_setBit_self h)
    · exact ih hbit (by rwa [length_setBit])

section

variable {bytes : ℕ} {probes : UInt8} {hashes : List UInt64} {data : Bytes} {bit : ℕ}

theorem length_foldl_hashes :
    (hashes.foldl (fun data keyHash => (bitsOf bytes probes keyHash).foldl setBit data) data).length
      = data.length := by
  induction hashes generalizing data with
  | nil => rfl
  | cons keyHash hashes ih => rw [List.foldl_cons, ih, length_foldl_setBit]

theorem testBit_foldl_hashes (hashes : List UInt64) (h : testBit data bit = true) :
    testBit
      (hashes.foldl (fun data keyHash => (bitsOf bytes probes keyHash).foldl setBit data) data)
      bit = true := by
  induction hashes generalizing data with
  | nil => exact h
  | cons keyHash hashes ih => exact ih (testBit_foldl_setBit _ h)

theorem testBit_foldl_hashes_of_mem {keyHash : UInt64} (hmem : keyHash ∈ hashes)
    (hbit : bit ∈ bitsOf bytes probes keyHash) (h : bit / 8 < data.length) :
    testBit
      (hashes.foldl (fun data keyHash => (bitsOf bytes probes keyHash).foldl setBit data) data)
      bit = true := by
  induction hashes generalizing data with
  | nil => cases hmem
  | cons other hashes ih =>
    rcases List.mem_cons.mp hmem with rfl | hmem
    · exact testBit_foldl_hashes hashes (testBit_foldl_setBit_of_mem hbit h)
    · exact ih hmem (by rwa [length_foldl_setBit])

end

theorem bytesFor_pos (count bitsPerKey : ℕ) : 0 < bytesFor count bitsPerKey := by
  unfold bytesFor minBits
  omega

theorem optimalProbes_ne_zero (bitsPerKey : ℕ) : optimalProbes bitsPerKey ≠ 0 := by
  intro h
  have hnat := congrArg UInt8.toNat h
  have hlt : max 1 (min ((bitsPerKey * 69315 + 50000) / 100000) 30) < 256 := by omega
  rw [optimalProbes, UInt8.toNat_ofNat_of_lt' hlt, UInt8.toNat_zero] at hnat
  omega

theorem length_data_build (hashes : List UInt64) (bitsPerKey : ℕ) :
    (build hashes bitsPerKey).data.length = bytesFor hashes.length bitsPerKey + 1 := by
  unfold build
  dsimp only
  rw [List.length_set, length_foldl_hashes, List.length_replicate]

/-- The last byte of a filter is its probe count. -/
theorem getLast?_data_build (hashes : List UInt64) (bitsPerKey : ℕ) :
    (build hashes bitsPerKey).data.getLast? = some (optimalProbes bitsPerKey) := by
  rw [List.getLast?_eq_getElem?, length_data_build, Nat.add_sub_cancel]
  unfold build
  dsimp only
  rw [List.getElem?_set_self]
  rw [length_foldl_hashes, List.length_replicate]
  exact Nat.lt_succ_self _

/-- A filter is read back as it was built. -/
theorem decode_build (hashes : List UInt64) (bitsPerKey : ℕ) :
    decode (build hashes bitsPerKey).data = some (build hashes bitsPerKey) := by
  have hlen := length_data_build hashes bitsPerKey
  have hpos := bytesFor_pos hashes.length bitsPerKey
  rw [decode, getLast?_data_build]
  dsimp only
  rw [if_neg]
  rintro (hshort | hzero)
  · omega
  · exact optimalProbes_ne_zero bitsPerKey hzero

/-- **A filter never misses a hash it was built over.** -/
theorem mayContainHash_build {hashes : List UInt64} (bitsPerKey : ℕ) {keyHash : UInt64}
    (h : keyHash ∈ hashes) : (build hashes bitsPerKey).mayContainHash keyHash = true := by
  have hpos := bytesFor_pos hashes.length bitsPerKey
  rw [mayContainHash, length_data_build, Nat.add_sub_cancel, probes, getLast?_data_build,
    Option.getD_some, List.all_eq_true]
  intro bit hbit
  have hlt := bitsOf_lt hpos hbit
  have hroom :
      bit / 8 < (List.replicate (bytesFor hashes.length bitsPerKey + 1) (0 : UInt8)).length := by
    rw [List.length_replicate]
    omega
  have hset := testBit_foldl_hashes_of_mem h hbit hroom
  -- the byte of the probe count is behind every bit
  rw [testBit_iff] at hset ⊢
  obtain ⟨byte, hbyte, hset⟩ := hset
  refine ⟨byte, ?_, hset⟩
  unfold build
  dsimp only
  rw [List.getElem?_set_ne hlt.ne', hbyte]

end Bloom

end Lsmkv
