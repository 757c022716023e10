import Lsmkv.Lib.BinarySearch
import Lsmkv.Lib.Iter
import Lsmkv.Sstable.Writer

/-!
# Reading a table file (`SsTable::open`, `SsTable::get`, `Scan`)

`openFile` trusts nothing it reads: the footer, the index and the filter each have a checksum and a
parser of their own.  A lookup reads one block and a scan reads them in turn; both take records off
the front of what is left of a block.

The sums of an offset and a length are `u64` additions, which wrap in a release build.
-/

namespace Lsmkv.Sst

/-- `read_exact_at`. -/
def readExactAt (file : Bytes) (path : Path) (offset len : ℕ) : Except Error Bytes :=
  if offset + len ≤ file.length then .ok ((file.drop offset).take len) else .error (.io path)

/-- Reads `len` bytes at `offset` and verifies the checksum that closes them. -/
def readChecked (file : Bytes) (path : Path) (offset len : ℕ) : Except Error Bytes :=
  if len < crcLen then .error (.corrupt path "block shorter than its checksum")
  else do
    let bytes ← readExactAt file path offset len
    let split := len - crcLen
    if crc32 (bytes.take split) ≠ u32At bytes split then .error (.corrupt path "checksum mismatch")
    else .ok (bytes.take split)

/-- The loop of `parse_index`.  Every turn takes bytes off the cursor, so its length is fuel
enough. -/
def parseBlocks : ℕ → Bytes → Option (List BlockRef)
  | 0, _ => some []
  | fuel + 1, cursor =>
    if cursor = [] then some []
    else do
      let (firstKey, cursor) ← takeField cursor
      let (offset, cursor) ← takeU64 cursor
      let (len, cursor) ← takeU32 cursor
      let blocks ← parseBlocks fuel cursor
      some (⟨firstKey, offset, len⟩ :: blocks)

/-- The smallest key, the largest key and the blocks an index names. -/
def parseIndex (cursor : Bytes) : Option (Bytes × Bytes × List BlockRef) := do
  let (minKey, cursor) ← takeField cursor
  let (maxKey, cursor) ← takeField cursor
  let blocks ← parseBlocks cursor.length cursor
  some (minKey, maxKey, blocks)

/-- Takes one record off the front of a block. -/
def takeRecord (cursor : Bytes) : Option (Entry × Bytes) := do
  let (seq, cursor) ← takeU64 cursor
  let (kind, cursor) ← takeU8 cursor
  let (key, cursor) ← takeField cursor
  if kind = kindSet then
    let (value, cursor) ← takeField cursor
    some (⟨key, seq, some value⟩, cursor)
  else if kind = kindDelete then some (⟨key, seq, none⟩, cursor)
  else none

/-- Walks a block for `key`.  Returns `none` if the block is malformed. -/
def scanBlock (key : Bytes) : ℕ → Bytes → Option Lookup
  | 0, _ => some .missing
  | fuel + 1, cursor =>
    if cursor = [] then some .missing
    else do
      let (e, cursor) ← takeRecord cursor
      match ordCmp e.key key with
      | .lt => scanBlock key fuel cursor
      | .eq => some (Lookup.ofEntry (some e))
      -- records are sorted, so nothing further down can match
      | .gt => some .missing

/-- A sorted file, opened for reading. -/
structure SsTable where
  path : Path
  file : Bytes
  blocks : List BlockRef
  filter : Bloom
  minKey : Bytes
  maxKey : Bytes
  entries : ℕ
  bytes : ℕ
  deriving DecidableEq, Repr

namespace SsTable

/-- The part of `open` behind the checks of the footer. -/
def load (path : Path) (file : Bytes) (indexOffset indexLen filterOffset filterLen entries : ℕ) :
    Except Error SsTable :=
  let trailer := file.length - footerLen
  if trailer < (indexOffset + indexLen) % u64Limit
      ∨ trailer < (filterOffset + filterLen) % u64Limit then
    .error (.corrupt path "footer points past the file")
  else do
    let index ← readChecked file path indexOffset indexLen
    let (minKey, maxKey, blocks) ← match parseIndex index with
      | some parsed => .ok parsed
      | none => .error (.corrupt path "index is not readable")
    let filter ← readChecked file path filterOffset filterLen
    let filter ← match Bloom.decode filter with
      | some filter => .ok filter
      | none => .error (.corrupt path "filter is not readable")
    .ok ⟨path, file, blocks, filter, minKey, maxKey, entries, file.length⟩

/-- The part of `open` that checks the footer. -/
def readFooter (path : Path) (file footer : Bytes) : Except Error SsTable :=
  let version := u32At footer (footerLen - magic.length - 4)
  if footer.drop (footerLen - magic.length) ≠ magic then .error (.corrupt path "not a sorted table")
  else if version ≠ formatVersion then
    .error (.corrupt path s!"format version {version}, expected {formatVersion}")
  else if crc32 (footer.take footerChecked) ≠ u32At footer footerChecked then
    .error (.corrupt path "footer checksum mismatch")
  else
    load path file (u64At footer 0) (u32At footer 8) (u64At footer 12) (u32At footer 20)
      (u64At footer 24)

/-- `SsTable::open`, on the bytes of the file at `path`. -/
def openFile (path : Path) (file : Bytes) : Except Error SsTable :=
  if file.length < footerLen then .error (.corrupt path "shorter than a footer")
  else do
    let footer ← readExactAt file path (file.length - footerLen) footerLen
    readFooter path file footer

/-- Looks `key` up, reading at most one block. -/
def get (t : SsTable) (key : Bytes) : Except Error Lookup :=
  if key < t.minKey ∨ t.maxKey < key then .ok .missing
  else if !t.filter.mayContain key then .ok .missing
  else
    -- the last block whose first key is not past the one we want
    let candidate := partitionPoint (fun block => decide (block.firstKey ≤ key)) t.blocks
    match (if candidate = 0 then none else t.blocks[candidate - 1]?) with
    | none => .ok .missing
    | some block => do
      let bytes ← readChecked t.file t.path block.offset block.len
      match scanBlock key bytes.length bytes with
      | some lookup => .ok lookup
      | none => .error (.corrupt t.path "block is not readable")

end SsTable

/-- Every entry of a file, in key order, one block at a time. -/
structure Scan where
  table : SsTable
  nextBlock : ℕ
  buffer : Bytes
  offset : ℕ
  failed : Bool
  deriving DecidableEq, Repr

/-- Every entry in key order. -/
def SsTable.scan (t : SsTable) : Scan := ⟨t, 0, [], 0, false⟩

namespace Scan

/-- The loop of `next`.  Every turn but the last takes a block, so the blocks left are fuel
enough. -/
def loop : ℕ → Scan → Option (Except Error Entry) × Scan
  | 0, s => (none, s)
  | fuel + 1, s =>
    if s.offset < s.buffer.length then
      match takeRecord (s.buffer.drop s.offset) with
      | none =>
        (some (.error (.corrupt s.table.path "block is not readable")), { s with failed := true })
      | some (e, cursor) => (some (.ok e), { s with offset := s.buffer.length - cursor.length })
    else
      match s.table.blocks[s.nextBlock]? with
      | none => (none, s)
      | some block =>
        let s := { s with nextBlock := s.nextBlock + 1 }
        match readChecked s.table.file s.table.path block.offset block.len with
        | .ok bytes => loop fuel { s with buffer := bytes, offset := 0 }
        | .error err => (some (.error err), { s with failed := true })

/-- `Iterator::next`. -/
def next (s : Scan) : Option (Except Error Entry) × Scan :=
  if s.failed then (none, s) else loop (s.table.blocks.length - s.nextBlock + 1) s

end Scan

end Lsmkv.Sst
