import Lsmkv.Lib.Run
import Lsmkv.Lookup

/-!
# Sorted tables (`sstable.rs`)

A table file is a sorted run with the size the writer gave it.  This layer keeps what the engine
sees of a table: its entries in key order, its key range, its size and its lookups.  `Writer`
follows the lengths of what it writes, block by block, since a compaction cuts its outputs by
them; the bytes of a block, of the index and of the filter are not represented here.
-/

namespace Lsmkv

/-- `BLOCK_SIZE`. -/
def blockSize : ℕ := 4096

/-- `CRC_LEN`. -/
def crcLen : ℕ := 4

/-- `FOOTER_LEN`. -/
def footerLen : ℕ := 8 + 4 + 8 + 4 + 8 + 4 + 4 + 8

/-- Length of an entry in a block: number, kind and length-prefixed fields. -/
def recordLen (e : Entry) : ℕ := 8 + 1 + (4 + e.key.length) + e.value.elim 0 fun v => 4 + v.length

/-- Length of a Bloom filter over `n` keys, the probe count included. -/
def bloomLen (n : ℕ) : ℕ := (max (n * 10) 64 + 7) / 8 + 1

/-- What a writer has put into its file so far. -/
structure Writer where
  /-- Length of the open block. -/
  block : ℕ
  /-- First keys of the blocks written. -/
  blocks : List Bytes
  firstKey : Bytes
  minKey : Bytes
  maxKey : Bytes
  offset : ℕ
  entries : ℕ
  deriving DecidableEq, Repr

namespace Writer

/-- `Writer::create`. -/
def create : Writer := ⟨0, [], [], [], [], 0, 0⟩

/-- Closes the open block with its checksum. -/
def closeBlock (w : Writer) : Writer :=
  if w.block = 0 then w
  else
    { w with offset := w.offset + (w.block + crcLen), block := 0
             blocks := w.blocks ++ [w.firstKey], firstKey := [] }

/-- Appends one entry. -/
def add (w : Writer) (e : Entry) : Writer :=
  let w := { w with
    firstKey := if w.block = 0 then e.key else w.firstKey
    minKey := if w.entries = 0 then e.key else w.minKey
    maxKey := e.key
    entries := w.entries + 1
    block := w.block + recordLen e }
  if blockSize ≤ w.block then w.closeBlock else w

/-- Bytes written so far, which is what a compaction cuts its output on. -/
def bytesWritten (w : Writer) : ℕ := w.offset

/-- Size of the file once the filter, the index and the footer are written. -/
def finish (w : Writer) : ℕ :=
  let w := w.closeBlock
  let filter := bloomLen w.entries + crcLen
  let index := (4 + w.minKey.length) + (4 + w.maxKey.length)
    + (w.blocks.map fun first => (4 + first.length) + 8 + 4).sum + crcLen
  w.offset + filter + index + footerLen

end Writer

/-- A table, opened for reading. -/
structure SsTable where
  run : Run Bytes Bytes
  bytes : ℕ

namespace SsTable

/-- The table a writer makes of a run: every entry added in key order, then `finish`. -/
def write (run : Run Bytes Bytes) : SsTable :=
  ⟨run, (run.entries.foldl Writer.add Writer.create).finish⟩

/-- Smallest key in the file. -/
def minKey (t : SsTable) : Bytes := (t.run.entries.head?.map Version.key).getD []

/-- Largest key in the file. -/
def maxKey (t : SsTable) : Bytes := (t.run.entries.getLast?.map Version.key).getD []

/-- Entries the file holds, tombstones included. -/
def entries (t : SsTable) : ℕ := t.run.entries.length

/-- Size of the file on disk. -/
def sizeBytes (t : SsTable) : ℕ := t.bytes

/-- Every entry in key order. -/
def scan (t : SsTable) : List Entry := t.run.entries

/-- Looks `key` up. -/
def get (t : SsTable) (key : Bytes) : Lookup :=
  if key < t.minKey ∨ t.maxKey < key then .missing else Lookup.ofEntry (t.run.find key)

/-- The keys of a table lie between its smallest and its largest. -/
theorem key_bounds {t : SsTable} {e : Entry} (he : e ∈ t.run.entries) :
    t.minKey ≤ e.key ∧ e.key ≤ t.maxKey := by
  obtain ⟨⟨entries, sorted⟩, bytes⟩ := t
  change e ∈ entries at he
  constructor
  · cases entries with
    | nil => cases he
    | cons f rest =>
      change f.key ≤ e.key
      rcases List.mem_cons.mp he with rfl | he
      · exact le_rfl
      · exact ((List.pairwise_cons.mp sorted).1 e he).le
  · cases entries using List.reverseRecOn with
    | nil => cases he
    | append_singleton rest f =>
      have hmax : maxKey ⟨⟨rest ++ [f], sorted⟩, bytes⟩ = f.key := by simp [maxKey]
      rw [hmax]
      rcases List.mem_append.mp he with he | he
      · exact ((List.pairwise_append.mp sorted).2.2 e he f (List.mem_singleton_self f)).le
      · rw [List.mem_singleton.mp he]

/-- The check of the key range rejects no key of the table. -/
theorem get_eq (t : SsTable) (key : Bytes) : t.get key = Lookup.ofEntry (t.run.find key) := by
  unfold get
  split_ifs with hrange
  · cases hfind : t.run.find key with
    | none => rfl
    | some e =>
      obtain ⟨hmem, rfl⟩ := Run.find_mem hfind
      obtain ⟨hmin, hmax⟩ := key_bounds hmem
      rcases hrange with h | h
      · exact absurd h (not_lt.mpr hmin)
      · exact absurd h (not_lt.mpr hmax)
  · rfl

end SsTable

end Lsmkv
