import Lsmkv.Checksum.Reference
import Lsmkv.Sstable.RoundTrip

/-!
# Damaged blocks (`read_checked`)

A block is stored with its checksum behind it.  `readChecked_burst` says that damage to any
thirty-two consecutive bits of the two is noticed, wherever it is and however long the block: the
register of the checksum ends in the state of a sound block only if nothing changed.
-/

namespace Lsmkv.Sst

/-- What the check of a block compares. -/
theorem readChecked_block_eq {block : Bytes} (h : crcLen ≤ block.length) (before after : Bytes)
    (path : Path) :
    readChecked (before ++ (block ++ after)) path before.length block.length
      = if crc32 (block.take (block.length - crcLen))
        = ofLeBytes (block.drop (block.length - crcLen))
        then .ok (block.take (block.length - crcLen))
        else .error (.corrupt path "checksum mismatch") := by
  have htail :
      (block.drop (block.length - crcLen)).take 4 = block.drop (block.length - crcLen) := by
    rw [List.take_of_length_le]
    rw [List.length_drop]
    unfold crcLen at h ⊢
    omega
  rw [readChecked, if_neg (Nat.not_lt.mpr h), readExactAt_append after path rfl rfl, ok_bind]
  dsimp only
  rw [u32At, htail, ite_not]

/-- A block is sound exactly if the register ends where it ends for every sound block. -/
theorem sound_iff {block : Bytes} (h : crcLen ≤ block.length) :
    crc32 (block.take (block.length - crcLen)) = ofLeBytes (block.drop (block.length - crcLen))
      ↔ (bits block).foldl crcBit crcInit = crcBits 32 (BitVec.allOnes 32) := by
  have hlen : (block.drop (block.length - crcLen)).length = 4 := by
    rw [List.length_drop]
    unfold crcLen at h ⊢
    omega
  rw [crc32_eq_iff _ hlen, List.take_append_drop, foldl_crcBit_bits]

theorem bits_injective {block block' : Bytes} (hlen : block.length = block'.length)
    (h : bits block = bits block') : block = block' := by
  have hvalue : ofLeBytes block = ofLeBytes block' := by
    apply Nat.eq_of_testBit_eq
    intro i
    rw [testBit_ofLeBytes, testBit_ofLeBytes, h]
  rw [← toLeBytes_ofLeBytes block, hvalue, hlen, toLeBytes_ofLeBytes]

/-- Bits that differ only within a window are the same before and behind it. -/
theorem exists_window {l l' : List Bool} (hlen : l.length = l'.length) (hne : l ≠ l') {start : ℕ}
    (h : ∀ i, l[i]? ≠ l'[i]? → start ≤ i ∧ i < start + 32) :
    ∃ before w w' after, l = before ++ w ++ after ∧ l' = before ++ w' ++ after
      ∧ w.length = w'.length ∧ w.length ≤ 32 ∧ w ≠ w' := by
  have hbefore : l.take start = l'.take start := by
    apply List.ext_getElem?
    intro i
    rw [List.getElem?_take, List.getElem?_take]
    split_ifs with hi
    · by_contra hdiff
      have := h i hdiff
      omega
    · rfl
  have hafter : l.drop (start + 32) = l'.drop (start + 32) := by
    apply List.ext_getElem?
    intro i
    rw [List.getElem?_drop, List.getElem?_drop]
    by_contra hdiff
    have := h _ hdiff
    omega
  have hsplit : ∀ m : List Bool, m = m.take start ++ (m.drop start).take 32 ++ m.drop
      (start + 32) := by
    intro m
    rw [← List.drop_drop, List.append_assoc, List.take_append_drop, List.take_append_drop]
  refine ⟨l.take start, (l.drop start).take 32, (l'.drop start).take 32, l.drop (start + 32),
    hsplit l, ?_, ?_, List.length_take_le _ _, fun hsame => hne ?_⟩
  · rw [hbefore, hafter]
    exact hsplit l'
  · rw [List.length_take, List.length_take, List.length_drop, List.length_drop, hlen]
  · rw [hsplit l, hsplit l', hbefore, hsame, hafter]

/-- **Damage within thirty-two consecutive bits of a stored block is noticed**, and the block that
was stored is read back. -/
theorem readChecked_burst (body : Bytes) {block : Bytes}
    (hlen : block.length = (withCrc body).length)
    (hne : block ≠ withCrc body) {start : ℕ}
    (hburst : ∀ i, (bits block)[i]? ≠ (bits (withCrc body))[i]? → start ≤ i ∧ i < start + 32)
    (before after : Bytes) (path : Path) :
    readChecked (before ++ (withCrc body ++ after)) path before.length
      (withCrc body).length = .ok body
      ∧ readChecked (before ++ (block ++ after)) path before.length block.length
        = .error (.corrupt path "checksum mismatch") := by
  refine ⟨readChecked_append before body after path, ?_⟩
  have hstored : crcLen ≤ (withCrc body).length := by
    rw [length_withCrc]
    omega
  have hsound := readChecked_append before body after path
  rw [readChecked_block_eq hstored] at hsound
  split_ifs at hsound with hcrc
  rw [sound_iff hstored] at hcrc
  have hbits : bits block ≠ bits (withCrc body) := fun h => hne (bits_injective hlen h)
  have hbitsLen : (bits block).length = (bits (withCrc body)).length := by
    rw [length_bits, length_bits, hlen]
  obtain ⟨first, w, w', rest, hblock, hbody, hw, hle, hdiff⟩ := exists_window hbitsLen hbits hburst
  rw [readChecked_block_eq (hlen ▸ hstored), if_neg]
  rw [sound_iff (hlen ▸ hstored), ← hcrc, hblock, hbody]
  exact foldl_crcBit_ne crcInit first rest hw hle hdiff

/-- The low bit of the only byte of a block flipped. -/
theorem readChecked_burst_flip :
    [0x60] ++ (withCrc [0x61]).drop 1 ≠ withCrc [0x61]
      ∧ readChecked ([0x60] ++ (withCrc [0x61]).drop 1) .manifest 0 5
        = .error (.corrupt .manifest "checksum mismatch") := by
  have hne : [0x60] ++ (withCrc [0x61]).drop 1 ≠ withCrc [0x61] := by decide +kernel
  have hburst : ∀ i, (bits ([0x60] ++ (withCrc [0x61]).drop 1))[i]? ≠ (bits (withCrc [0x61]))[i]? →
      0 ≤ i ∧ i < 0 + 32 := by
    intro i hi
    refine ⟨Nat.zero_le i, ?_⟩
    by_contra! hle
    refine hi ?_
    have hfirst : ∀ byte : UInt8, (bits (byte :: (withCrc [0x61]).drop 1))[i]?
        = (bits ((withCrc [0x61]).drop 1))[i - 8]? := by
      intro byte
      rw [bits, List.flatMap_cons, List.getElem?_append_right (by rw [length_byteBits]; omega),
        length_byteBits, bits]
    exact (hfirst 0x60).trans (hfirst 0x61).symm
  have hcaught := (readChecked_burst [0x61] (by rfl) hne hburst [] [] .manifest).2
  rw [List.append_nil, List.nil_append] at hcaught
  exact ⟨hne, hcaught⟩

end Lsmkv.Sst
