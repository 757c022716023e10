import Lsmkv.Bloom
import Lsmkv.Lib.Checked

/-!
# The Bloom filter with its panics

In a debug build the sizing arithmetic of `Bloom::build` panics if it overflows, and in any build
an index past the end of the array or a division by zero does.  The functions here are those of
`bloom.rs` with these panics.  They return what those without panics do: building as long as the
sizing arithmetic does not overflow (`build_eq`), and a lookup on whatever `decode` accepts
(`mayContainHash_eq`).  So a filter that could be built has no false negatives, whether it is asked
at once or after a round trip through its bytes (`build_safe`).
-/

namespace Lsmkv.Debug

open Bloom

/-- Probe count that minimizes false positives at this density. -/
def optimalProbes (bitsPerKey : ℕ) : Checked UInt8 := do
  let scaled ← Checked.mul u64Limit bitsPerKey 69315
  let scaled ← Checked.add u64Limit scaled 50000
  .ok (UInt8.ofNat (max 1 (min (scaled / 100000) 30)))

/-- The loop of `build` over the probes of one hash. -/
def setProbes (bitLen step : UInt32) : ℕ → UInt32 → Bytes → Checked Bytes
  | 0, _, data => .ok data
  | probes + 1, position, data => do
    let bit ← Checked.mod position bitLen
    let bit := bit.toNat
    let data ← Checked.modify data (bit / 8) (· ||| (1 <<< UInt8.ofNat (bit % 8)))
    setProbes bitLen step probes (position + step) data

/-- Builds a filter over key hashes. -/
def build (hashes : List UInt64) (bitsPerKey : ℕ) : Checked Bloom := do
  let probes ← optimalProbes bitsPerKey
  let bits ← Checked.mul u64Limit hashes.length bitsPerKey
  let bytes := (max bits minBits + 7) / 8
  let size ← Checked.add u64Limit bytes 1
  let bitLen := bitLen bytes
  let data ← hashes.foldlM
    (fun data keyHash =>
      let (position, step) := split keyHash
      setProbes bitLen step probes.toNat position data)
    (List.replicate size 0)
  let data ← Checked.modify data bytes fun _ => probes
  .ok ⟨data⟩

/-- Probes each lookup performs. -/
def probes (filter : Bloom) : Checked UInt8 := do
  let last ← Checked.sub filter.data.length 1
  Checked.index filter.data last

/-- The loop of `may_contain_hash`. -/
def testProbes (data : Bytes) (bitLen step : UInt32) : ℕ → UInt32 → Checked Bool
  | 0, _ => .ok true
  | probes + 1, position => do
    let bit ← Checked.mod position bitLen
    let bit := bit.toNat
    let byte ← Checked.index data (bit / 8)
    if byte &&& (1 <<< UInt8.ofNat (bit % 8)) = 0 then .ok false
    else testProbes data bitLen step probes (position + step)

/-- Whether a key with this hash may be in the set. -/
def mayContainHash (filter : Bloom) (keyHash : UInt64) : Checked Bool := do
  let bytes ← Checked.sub filter.data.length 1
  let (position, step) := split keyHash
  let probes ← probes filter
  testProbes filter.data (bitLen bytes) step probes.toNat position

/-! ### Building -/

theorem optimalProbes_eq {bitsPerKey : ℕ} (h : bitsPerKey * 69315 + 50000 < u64Limit) :
    optimalProbes bitsPerKey = .ok (Bloom.optimalProbes bitsPerKey) := by
  have hscaled : bitsPerKey * 69315 < u64Limit := (Nat.le_add_right _ _).trans_lt h
  rw [optimalProbes, Checked.mul_of_lt hscaled, Checked.ok_bind, Checked.add_of_lt h]
  rfl

theorem ne_zero_of_toNat_pos {n : UInt32} (h : 0 < n.toNat) : n ≠ 0 := by
  rintro rfl
  exact absurd h (by decide)

/-- The loop over the probes stays inside an array that holds the bits. -/
theorem setProbes_eq {bitLen step : UInt32} (hpos : 0 < bitLen.toNat) {probes : ℕ}
    {position : UInt32} {data : Bytes} (h : bitLen.toNat ≤ data.length * 8) :
    setProbes bitLen step probes position data
      = .ok ((probeBits bitLen probes position step).foldl setBit data) := by
  induction probes generalizing position data with
  | zero => rfl
  | succ probes ih =>
    have hlt := Nat.mod_lt position.toNat hpos
    have hindex : (position % bitLen).toNat / 8 < data.length := by
      rw [UInt32.toNat_mod]
      omega
    rw [setProbes, Checked.mod_of_ne (ne_zero_of_toNat_pos hpos), Checked.ok_bind]
    dsimp only
    rw [Checked.modify_of_lt _ hindex, Checked.ok_bind, ih (by rwa [List.length_modify])]
    rfl

/-- The loop over the hashes keeps the length of the array, so it holds every bit throughout. -/
theorem foldlM_setProbes {bytes : ℕ} (hbytes : 0 < bytes) (probes : UInt8) (hashes : List UInt64)
    {data : Bytes} (h : data.length = bytes + 1) :
    hashes.foldlM
      (fun data keyHash =>
        let (position, step) := split keyHash
        setProbes (bitLen bytes) step probes.toNat position data) data
      = .ok (hashes.foldl (fun data keyHash => (bitsOf bytes probes keyHash).foldl setBit data)
          data) := by
  obtain ⟨hpos, hle⟩ := bitLen_spec hbytes
  refine Checked.foldlM_eq (fun data : Bytes => data.length = bytes + 1)
    (fun data keyHash hdata => ?_)
    (fun data keyHash hdata => ?_) hashes h
  · exact setProbes_eq hpos (by omega)
  · rw [length_foldl_setBit, hdata]

theorem modify_eq_set {data : Bytes} {i : ℕ} (h : i < data.length) (byte : UInt8) :
    Checked.modify data i (fun _ => byte) = .ok (data.set i byte) := by
  rw [Checked.modify_of_lt _ h, List.modify_eq_set_getElem?, List.getElem?_eq_getElem h]
  rfl

/-- **Building does not panic** if the sizing arithmetic does not overflow. -/
theorem build_eq {hashes : List UInt64} {bitsPerKey : ℕ}
    (hbits : hashes.length * bitsPerKey < u64Limit)
    (hprobes : bitsPerKey * 69315 + 50000 < u64Limit) :
    build hashes bitsPerKey = .ok (Bloom.build hashes bitsPerKey) := by
  have hbytes := bytesFor_pos hashes.length bitsPerKey
  have hsize : bytesFor hashes.length bitsPerKey + 1 < u64Limit := by
    unfold bytesFor minBits u64Limit at *
    omega
  rw [build, optimalProbes_eq hprobes, Checked.ok_bind, Checked.mul_of_lt hbits, Checked.ok_bind]
  dsimp only
  rw [← bytesFor, Checked.add_of_lt hsize, Checked.ok_bind,
    foldlM_setProbes hbytes _ hashes List.length_replicate, Checked.ok_bind, modify_eq_set]
  · rfl
  · rw [length_foldl_hashes, List.length_replicate]
    exact Nat.lt_succ_self _

/-! ### Looking up -/

theorem probes_eq {filter : Bloom} (h : 0 < filter.data.length) :
    probes filter = .ok filter.probes := by
  have hlast : filter.data.length - 1 < filter.data.length := by omega
  rw [probes, Checked.sub_of_le (by omega), Checked.ok_bind,
    Checked.index_of_getElem? (List.getElem?_eq_getElem hlast), Bloom.probes,
    List.getLast?_eq_getElem?, List.getElem?_eq_getElem hlast, Option.getD_some]

theorem testProbes_eq {data : Bytes} {bitLen step : UInt32} (hpos : 0 < bitLen.toNat)
    (h : bitLen.toNat ≤ data.length * 8) {probes : ℕ} {position : UInt32} :
    testProbes data bitLen step probes position
      = .ok ((probeBits bitLen probes position step).all (testBit data)) := by
  induction probes generalizing position with
  | zero => rfl
  | succ probes ih =>
    have hlt := Nat.mod_lt position.toNat hpos
    have hindex : (position % bitLen).toNat / 8 < data.length := by
      rw [UInt32.toNat_mod]
      omega
    have hbyte := List.getElem?_eq_getElem hindex
    rw [testProbes, Checked.mod_of_ne (ne_zero_of_toNat_pos hpos), Checked.ok_bind]
    dsimp only
    rw [Checked.index_of_getElem? hbyte, Checked.ok_bind, ih, probeBits, List.all_cons,
      testBit, hbyte, Option.any_some]
    split_ifs with hzero
    · rw [decide_eq_false (not_not.mpr hzero), Bool.false_and]
    · rw [decide_eq_true hzero, Bool.true_and]

/-- **A lookup does not panic** on a filter with a byte for its bits and one for its probes. -/
theorem mayContainHash_eq {filter : Bloom} (h : 2 ≤ filter.data.length) (keyHash : UInt64) :
    mayContainHash filter keyHash = .ok (filter.mayContainHash keyHash) := by
  obtain ⟨hpos, hle⟩ := bitLen_spec (show 0 < filter.data.length - 1 by omega)
  rw [mayContainHash, Checked.sub_of_le (by omega), Checked.ok_bind, probes_eq (by omega)]
  exact testProbes_eq hpos (by omega)

/-- **No false negatives, and no panic.**  If the sizing arithmetic does not overflow, a filter is
built; its bytes decode to it; the bits of every hash are inside its array, in front of the byte
with the probe count; and every lookup returns, with true for a hash it was built over. -/
theorem build_safe (hashes : List UInt64) (bitsPerKey : ℕ)
    (hbits : hashes.length * bitsPerKey < u64Limit)
    (hprobes : bitsPerKey * 69315 + 50000 < u64Limit) :
    ∃ filter, build hashes bitsPerKey = .ok filter ∧ decode filter.data = some filter
      ∧ (∀ keyHash, ∀ bit ∈ bitsOf (filter.data.length - 1) filter.probes keyHash,
          bit / 8 < filter.data.length - 1)
      ∧ (∀ keyHash, ∃ answer, mayContainHash filter keyHash = .ok answer)
      ∧ ∀ keyHash ∈ hashes, mayContainHash filter keyHash = .ok true := by
  have hlen := length_data_build hashes bitsPerKey
  have hpos := bytesFor_pos hashes.length bitsPerKey
  have hlookup := fun keyHash =>
    mayContainHash_eq (show 2 ≤ (Bloom.build hashes bitsPerKey).data.length by omega) keyHash
  refine ⟨_, build_eq hbits hprobes, decode_build hashes bitsPerKey, fun keyHash bit hbit => ?_,
    fun keyHash => ⟨_, hlookup keyHash⟩, fun keyHash hmem => ?_⟩
  · exact bitsOf_lt (by omega) hbit
  · rw [hlookup, mayContainHash_build bitsPerKey hmem]

/-- Two hashes at the engine's density. -/
theorem build_safe_two :
    [(7 : UInt64), 0x123456789abcdef0].length * bitsPerKey < u64Limit
      ∧ bitsPerKey * 69315 + 50000 < u64Limit
      ∧ ∃ filter, build [7, 0x123456789abcdef0] bitsPerKey = .ok filter
        ∧ mayContainHash filter 0x123456789abcdef0 = .ok true := by
  have hbits : [(7 : UInt64), 0x123456789abcdef0].length * bitsPerKey < u64Limit := by decide
  have hprobes : bitsPerKey * 69315 + 50000 < u64Limit := by decide
  obtain ⟨filter, hbuild, -, -, -, hmem⟩ := build_safe _ _ hbits hprobes
  exact ⟨hbits, hprobes, filter, hbuild, hmem _ (by simp)⟩

end Lsmkv.Debug
