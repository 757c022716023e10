import Lsmkv.Bloom
import Lsmkv.Sstable
import Lsmkv.Wal.Record

/-!
# The bytes of a table file (`sstable::Writer`)

The writer encodes entries into the open block, closes a block with its checksum once it is large
enough, and ends the file with the filter, the index and the footer.  The writes of the operating
system are taken to succeed, so all that can fail is a length that does not fit its field.

`blocksOf es` is how the entries are cut into blocks and `fileOf es (blocksOf es)` the file they
make.  `decides_writeTable` says that writing a table gives that file if every length fits, and
reports one that does not otherwise; `writeTable_ne_tooLarge_iff` spells the lengths out.  `lengths`
forgets the bytes of a writer and keeps their number: what is left is the writer of `Lsmkv.Sstable`,
by which a compaction cuts its outputs (`lengths_addAll`, `length_fileOf`).
-/

namespace Lsmkv.Sst

/-- `MAGIC`, the bytes of `LSMKVSST`. -/
def magic : Bytes := [0x4C, 0x53, 0x4D, 0x4B, 0x56, 0x53, 0x53, 0x54]

def formatVersion : ℕ := 2

/-- Bytes of the footer the checksum covers. -/
def footerChecked : ℕ := 32

def kindSet : UInt8 := 0

def kindDelete : UInt8 := 1

/-- One block, as the index describes it. -/
structure BlockRef where
  firstKey : Bytes
  offset : ℕ
  /-- Bytes to read, checksum included. -/
  len : ℕ
  deriving DecidableEq, Repr

/-- Builds a sorted file, one block at a time. -/
structure Writer where
  /-- What has been written to the file. -/
  file : Bytes
  block : Bytes
  blocks : List BlockRef
  /-- One hash per entry. -/
  hashes : List UInt64
  firstKey : Bytes
  minKey : Bytes
  maxKey : Bytes
  offset : ℕ
  entries : ℕ
  deriving DecidableEq, Repr

/-- A block, a filter or an index with the checksum that closes it. -/
def withCrc (bytes : Bytes) : Bytes := bytes ++ toLeBytes 4 (crc32 bytes)

namespace Writer

/-- `Writer::create`. -/
def create : Writer := ⟨[], [], [], [], [], [], [], 0, 0⟩

/-- `Writer::write`. -/
def write (w : Writer) (bytes : Bytes) : Writer :=
  { w with file := w.file ++ bytes, offset := w.offset + bytes.length }

/-- Closes the open block with its checksum. -/
def closeBlock (w : Writer) : Except Error Writer :=
  if w.block = [] then .ok w
  else do
    let block := withCrc w.block
    let len ← lengthOf block
    let offset := w.offset
    let w := w.write block
    .ok { w with block := [], blocks := w.blocks ++ [⟨w.firstKey, offset, len⟩], firstKey := [] }

/-- The part of `add` that encodes the entry into the open block. -/
def pushRecord (block : Bytes) (e : Entry) : Except Error Bytes :=
  let block := block ++ toLeBytes 8 e.seq
  match e.value with
  | some value => do
    let block ← pushField (block ++ [kindSet]) e.key
    pushField block value
  | none => pushField (block ++ [kindDelete]) e.key

/-- The part of `add` that notes the key, before the entry is encoded. -/
def note (w : Writer) (key : Bytes) : Writer :=
  { w with
    firstKey := if w.block = [] then key else w.firstKey
    minKey := if w.entries = 0 then w.minKey ++ key else w.minKey
    maxKey := key
    hashes := w.hashes ++ [Bloom.hash key]
    entries := w.entries + 1 }

/-- Appends one entry. -/
def add (w : Writer) (e : Entry) : Except Error Writer := do
  let w := w.note e.key
  let block ← pushRecord w.block e
  let w := { w with block := block }
  if blockSize ≤ w.block.length then w.closeBlock else .ok w

/-- The loop of `finish` that writes the index entries. -/
def pushBlocks : Bytes → List BlockRef → Except Error Bytes
  | index, [] => .ok index
  | index, block :: blocks => do
    let index ← pushField index block.firstKey
    pushBlocks (index ++ toLeBytes 8 block.offset ++ toLeBytes 4 block.len) blocks

/-- Writes the filter, the index and the footer, and returns what the file holds then. -/
def finish (w : Writer) : Except Error Bytes := do
  let w ← w.closeBlock
  let filterOffset := w.offset
  let filterBlock := withCrc (Bloom.build w.hashes Bloom.bitsPerKey).data
  let filterLen ← lengthOf filterBlock
  let w := w.write filterBlock
  let indexOffset := w.offset
  let index ← pushField [] w.minKey
  let index ← pushField index w.maxKey
  let index ← pushBlocks index w.blocks
  let index := withCrc index
  let indexLen ← lengthOf index
  let w := w.write index
  let footer := withCrc (toLeBytes 8 indexOffset ++ toLeBytes 4 indexLen ++ toLeBytes 8 filterOffset
    ++ toLeBytes 4 filterLen ++ toLeBytes 8 w.entries)
  .ok (w.write (footer ++ toLeBytes 4 formatVersion ++ magic)).file

/-- Bytes written so far, which is what a compaction cuts its output on. -/
def bytesWritten (w : Writer) : ℕ := w.offset

/-- Adds entries one after another. -/
def addAll (w : Writer) (es : List Entry) : Except Error Writer := es.foldlM add w

end Writer

/-- The file that `create`, an `add` for every entry and `finish` produce. -/
def writeTable (es : List Entry) : Except Error Bytes := do
  let w ← Writer.create.addAll es
  w.finish

/-! ### What is written -/

/-- A length-prefixed byte string. -/
def field (bytes : Bytes) : Bytes := toLeBytes 4 bytes.length ++ bytes

/-- An entry as it stands in a block. -/
def record (e : Entry) : Bytes :=
  toLeBytes 8 e.seq ++ match e.value with
    | some value => kindSet :: (field e.key ++ field value)
    | none => kindDelete :: field e.key

/-- The records of a block. -/
def records (es : List Entry) : Bytes := es.flatMap record

/-- Blocks as they stand in the file. -/
def blockBytes (chunks : List (List Entry)) : Bytes := chunks.flatMap fun c => withCrc (records c)

/-- First of the keys, none if there is no entry. -/
def firstKey (es : List Entry) : Bytes := (es.head?.map Version.key).getD []

/-- Last of the keys, none if there is no entry. -/
def lastKey (es : List Entry) : Bytes := (es.getLast?.map Version.key).getD []

/-- What the index says of blocks that start at `offset`. -/
def blockRefs : ℕ → List (List Entry) → List BlockRef
  | _, [] => []
  | offset, c :: chunks =>
    ⟨firstKey c, offset, (withCrc (records c)).length⟩
      :: blockRefs (offset + (withCrc (records c)).length) chunks

/-- How the entries behind those of the open block are cut, and what stays in the open block. -/
def cutBlocks : List Entry → List Entry → List (List Entry) × List Entry
  | pending, [] => ([], pending)
  | pending, e :: es =>
    if blockSize ≤ (records (pending ++ [e])).length then
      ((pending ++ [e]) :: (cutBlocks [] es).1, (cutBlocks [] es).2)
    else cutBlocks (pending ++ [e]) es

/-- A block that is closed only if it holds something. -/
def lastBlock (pending : List Entry) : List (List Entry) := if pending = [] then [] else [pending]

/-- The blocks of a table. -/
def blocksOf (es : List Entry) : List (List Entry) :=
  (cutBlocks [] es).1 ++ lastBlock (cutBlocks [] es).2

/-- The filter of a table. -/
def filterOf (es : List Entry) : Bloom :=
  Bloom.build (es.map fun e => Bloom.hash e.key) Bloom.bitsPerKey

/-- An entry of the index. -/
def indexEntry (r : BlockRef) : Bytes :=
  field r.firstKey ++ toLeBytes 8 r.offset ++ toLeBytes 4 r.len

/-- The index of a table, without its checksum. -/
def indexOf (es : List Entry) (refs : List BlockRef) : Bytes :=
  field (firstKey es) ++ field (lastKey es) ++ refs.flatMap indexEntry

/-- The footer of a table, without its checksum, version and magic. -/
def footerOf (indexOffset indexLen filterOffset filterLen entries : ℕ) : Bytes :=
  toLeBytes 8 indexOffset ++ toLeBytes 4 indexLen ++ toLeBytes 8 filterOffset
    ++ toLeBytes 4 filterLen ++ toLeBytes 8 entries

/-- The file of entries cut into blocks. -/
def fileOf (es : List Entry) (chunks : List (List Entry)) : Bytes :=
  let blocks := blockBytes chunks
  let filter := withCrc (filterOf es).data
  let index := withCrc (indexOf es (blockRefs 0 chunks))
  blocks ++ filter ++ index
    ++ (withCrc (footerOf (blocks.length + filter.length) index.length blocks.length filter.length
      es.length) ++ toLeBytes 4 formatVersion ++ magic)

/-! ### Lengths that fit -/

/-- The computation gives `a` if `P` holds, and reports a length that does not fit otherwise. -/
structure Decides {α : Type} (x : Except Error α) (P : Prop) (a : α) : Prop where
  ok : P → x = .ok a
  tooLarge : ¬P → ∃ len, x = .error (.tooLarge len)

section

variable {α β : Type} {x : Except Error α} {f : α → Except Error β} {P Q : Prop} {a : α} {b : β}

theorem decides_ok (a : α) : Decides (.ok a) True a := ⟨fun _ => rfl, fun h => absurd trivial h⟩

theorem Decides.bind (h : Decides x P a) (h' : P → Decides (f a) Q b) :
    Decides (x >>= f) (P ∧ Q) b := by
  refine ⟨fun hpq => ?_, fun hnot => ?_⟩
  · rw [h.ok hpq.1]
    exact (h' hpq.1).ok hpq.2
  · by_cases hp : P
    · rw [h.ok hp]
      exact (h' hp).tooLarge fun hq => hnot ⟨hp, hq⟩
    · obtain ⟨len, hlen⟩ := h.tooLarge hp
      rw [hlen]
      exact ⟨len, rfl⟩

theorem Decides.congr (h : Decides x P a) (hiff : P ↔ Q) : Decides x Q a :=
  ⟨fun hq => h.ok (hiff.mpr hq), fun hq => h.tooLarge (mt hiff.mp hq)⟩

theorem Decides.of_eq_ok {b : α} (h : Decides x P a) (hx : x = .ok b) : P ∧ b = a := by
  by_cases hp : P
  · rw [h.ok hp] at hx
    exact ⟨hp, (Except.ok.inj hx).symm⟩
  · obtain ⟨len, hlen⟩ := h.tooLarge hp
    rw [hlen] at hx
    cases hx

theorem Decides.of_eq_error {err : Error} (h : Decides x P a) (hx : x = .error err) :
    ∃ len, err = .tooLarge len := by
  by_cases hp : P
  · rw [h.ok hp] at hx
    cases hx
  · obtain ⟨len, hlen⟩ := h.tooLarge hp
    exact ⟨len, Except.error.inj (hx.symm.trans hlen)⟩

theorem Decides.tooLarge_iff (h : Decides x P a) : (∃ len, x = .error (.tooLarge len)) ↔ ¬P := by
  refine ⟨fun ⟨len, hlen⟩ hp => ?_, h.tooLarge⟩
  rw [h.ok hp] at hlen
  cases hlen

end

/-- The key and the value fit their length fields. -/
def FieldsFit (e : Entry) : Prop :=
  e.key.length < u32Limit ∧ ∀ value, e.value = some value → value.length < u32Limit

/-- The block fits its length field. -/
def BlockFits (c : List Entry) : Prop := (withCrc (records c)).length < u32Limit

theorem length_withCrc (bytes : Bytes) : (withCrc bytes).length = bytes.length + crcLen := by
  rw [withCrc, List.length_append, length_toLeBytes, crcLen]

theorem decides_lengthOf (bytes : Bytes) :
    Decides (lengthOf bytes) (bytes.length < u32Limit) bytes.length :=
  ⟨fun h => if_pos h, fun h => ⟨_, if_neg h⟩⟩

theorem decides_pushField (buf bytes : Bytes) :
    Decides (pushField buf bytes) (bytes.length < u32Limit) (buf ++ field bytes) := by
  have h : Decides (lengthOf bytes >>= fun len => .ok (buf ++ toLeBytes 4 len ++ bytes)) _ _ :=
    (decides_lengthOf bytes).bind fun _ => decides_ok _
  rw [List.append_assoc] at h
  exact h.congr (iff_of_eq (and_true _))

theorem decides_pushRecord (block : Bytes) (e : Entry) :
    Decides (Writer.pushRecord block e) (FieldsFit e) (block ++ record e) := by
  obtain ⟨key, seq, value⟩ := e
  cases value with
  | none =>
    have hrec : block ++ record ⟨key, seq, none⟩
        = block ++ toLeBytes 8 seq ++ [kindDelete] ++ field key := by simp [record]
    have hiff : key.length < u32Limit ↔ FieldsFit ⟨key, seq, none⟩ := by simp [FieldsFit]
    rw [hrec]
    exact (decides_pushField _ key).congr hiff
  | some value =>
    have hrec : block ++ record ⟨key, seq, some value⟩
        = block ++ toLeBytes 8 seq ++ [kindSet] ++ field key ++ field value := by simp [record]
    have hiff : key.length < u32Limit ∧ value.length < u32Limit
        ↔ FieldsFit ⟨key, seq, some value⟩ := by simp [FieldsFit]
    rw [hrec]
    exact ((decides_pushField _ key).bind fun _ => decides_pushField _ value).congr hiff

/-! ### The writer after some entries -/

/-- The writer that closed the blocks `chunks` and has `pending` in the open one. -/
def writer (chunks : List (List Entry)) (pending : List Entry) : Writer where
  file := blockBytes chunks
  block := records pending
  blocks := blockRefs 0 chunks
  hashes := (chunks.flatten ++ pending).map fun e => Bloom.hash e.key
  firstKey := firstKey pending
  minKey := firstKey (chunks.flatten ++ pending)
  maxKey := lastKey (chunks.flatten ++ pending)
  offset := (blockBytes chunks).length
  entries := (chunks.flatten ++ pending).length

theorem record_ne_nil (e : Entry) : record e ≠ [] := by
  intro h
  have := congrArg List.length h
  rw [record, List.length_append, length_toLeBytes, List.length_nil] at this
  omega

theorem records_eq_nil_iff {es : List Entry} : records es = [] ↔ es = [] := by
  cases es with
  | nil => simp [records]
  | cons e es => simp [records, record_ne_nil]

theorem blockBytes_append (chunks chunks' : List (List Entry)) :
    blockBytes (chunks ++ chunks') = blockBytes chunks ++ blockBytes chunks' := List.flatMap_append

theorem blockRefs_append (offset : ℕ) (chunks chunks' : List (List Entry)) :
    blockRefs offset (chunks ++ chunks')
      = blockRefs offset chunks ++ blockRefs (offset + (blockBytes chunks).length) chunks' := by
  induction chunks generalizing offset with
  | nil => rfl
  | cons c chunks ih =>
    have hlen : (blockBytes (c :: chunks)).length
        = (withCrc (records c)).length + (blockBytes chunks).length := List.length_append
    rw [List.cons_append, blockRefs, ih, blockRefs, List.cons_append, hlen, Nat.add_assoc]

/-- The writer once the open block is closed. -/
theorem writer_closed (chunks : List (List Entry)) (pending : List Entry) :
    ({ (writer chunks pending).write (withCrc (records pending)) with
      block := []
      blocks := blockRefs 0 chunks
        ++ [⟨firstKey pending, (blockBytes chunks).length, (withCrc (records pending)).length⟩]
      firstKey := [] } : Writer) = writer (chunks ++ [pending]) [] := by
  have hbytes : blockBytes (chunks ++ [pending]) = blockBytes chunks ++ withCrc
      (records pending) := by
    rw [blockBytes_append]
    exact congrArg (blockBytes chunks ++ ·) (List.flatMap_singleton _ _)
  simp [writer, Writer.write, hbytes, blockRefs_append, blockRefs, records, firstKey]

theorem decides_closeBlock (chunks : List (List Entry)) (pending : List Entry) :
    Decides (writer chunks pending).closeBlock (pending = [] ∨ BlockFits pending)
      (writer (chunks ++ lastBlock pending) []) := by
  unfold Writer.closeBlock
  by_cases hempty : pending = []
  · subst hempty
    rw [if_pos (show (writer chunks []).block = [] from rfl), lastBlock, if_pos rfl,
      List.append_nil]
    exact (decides_ok _).congr (by simp)
  · have hblock : (writer chunks pending).block ≠ [] := mt records_eq_nil_iff.mp hempty
    rw [if_neg hblock, lastBlock, if_neg hempty, ← writer_closed]
    have hiff : BlockFits pending ∧ True ↔ pending = [] ∨ BlockFits pending := by simp [hempty]
    exact Decides.congr ((decides_lengthOf _).bind fun _ => decides_ok _) hiff

theorem firstKey_concat {es : List Entry} (e : Entry) :
    firstKey (es ++ [e]) = if es = [] then e.key else firstKey es := by
  cases es <;> simp [firstKey]

theorem lastKey_concat (es : List Entry) (e : Entry) : lastKey (es ++ [e]) = e.key := by
  simp [lastKey]

theorem records_concat (es : List Entry) (e : Entry) :
    records (es ++ [e]) = records es ++ record e := by
  simp [records]

theorem firstKey_append_ite (es : List Entry) (e : Entry) :
    firstKey (es ++ [e]) = if es.length = 0 then firstKey es ++ e.key else firstKey es := by
  cases es <;> simp [firstKey]

/-- The writer once an entry is in the open block. -/
theorem writer_pushed (chunks : List (List Entry)) (pending : List Entry) (e : Entry) :
    ({ (writer chunks pending).note e.key with block := records pending ++ record e } : Writer)
      = writer chunks (pending ++ [e]) := by
  have hfirst :
      firstKey (pending ++ [e]) = if records pending = [] then e.key else firstKey pending := by
    rw [firstKey_concat]
    simp only [records_eq_nil_iff]
  unfold writer Writer.note
  rw [hfirst, ← List.append_assoc, firstKey_append_ite, lastKey_concat, records_concat]
  simp [Nat.add_assoc]

theorem decides_add (chunks : List (List Entry)) (pending : List Entry) (e : Entry) :
    Decides ((writer chunks pending).add e)
      (FieldsFit e ∧ (blockSize ≤ (records (pending ++ [e])).length → BlockFits (pending ++ [e])))
      (if blockSize ≤ (records (pending ++ [e])).length then writer (chunks ++ [pending ++ [e]]) []
        else writer chunks (pending ++ [e])) := by
  refine (decides_pushRecord (records pending) e).bind fun _ => ?_
  rw [writer_pushed]
  change Decides (if blockSize ≤ (records (pending ++ [e])).length then
    (writer chunks (pending ++ [e])).closeBlock else .ok (writer chunks (pending ++ [e]))) _ _
  split_ifs with hfull
  · have hne : pending ++ [e] ≠ [] := List.append_ne_nil_of_right_ne_nil _ (List.cons_ne_nil _ _)
    have h := decides_closeBlock chunks (pending ++ [e])
    rw [lastBlock, if_neg hne] at h
    exact h.congr (by simp [hne, hfull])
  · exact (decides_ok _).congr (by simp [hfull])

/-- The entries of the blocks are the entries added, in order. -/
theorem flatten_cutBlocks (pending es : List Entry) :
    (cutBlocks pending es).1.flatten ++ (cutBlocks pending es).2 = pending ++ es := by
  induction es generalizing pending with
  | nil => simp [cutBlocks]
  | cons e es ih =>
    unfold cutBlocks
    split_ifs with hfull
    · rw [List.flatten_cons, List.append_assoc, ih, List.nil_append, List.append_assoc]
      rfl
    · rw [ih, List.append_assoc]
      rfl

/-- The fields of every entry fit, and every block that is closed. -/
theorem decides_addAll (chunks : List (List Entry)) (pending es : List Entry) :
    Decides ((writer chunks pending).addAll es)
      ((∀ e ∈ es, FieldsFit e) ∧ ∀ c ∈ (cutBlocks pending es).1, BlockFits c)
      (writer (chunks ++ (cutBlocks pending es).1) (cutBlocks pending es).2) := by
  induction es generalizing chunks pending with
  | nil =>
    have hiff : True ↔ (∀ e ∈ [], FieldsFit e) ∧ ∀ c ∈ (cutBlocks pending []).1, BlockFits c := by
      simp [cutBlocks]
    rw [cutBlocks, List.append_nil]
    exact (decides_ok _).congr hiff
  | cons e es ih =>
    have hadd := decides_add chunks pending e
    unfold cutBlocks
    split_ifs at hadd ⊢ with hfull
    · have h := hadd.bind (f := (·.addAll es)) fun _ => ih (chunks ++ [pending ++ [e]]) []
      rw [List.append_assoc] at h
      refine Decides.congr h ?_
      simp only [List.forall_mem_cons, hfull, true_imp_iff]
      tauto
    · have h := hadd.bind (f := (·.addAll es)) fun _ => ih chunks (pending ++ [e])
      refine Decides.congr h ?_
      simp only [List.forall_mem_cons, hfull, false_imp_iff, and_true, and_assoc]

theorem flatten_lastBlock (pending : List Entry) : (lastBlock pending).flatten = pending := by
  unfold lastBlock
  split_ifs with hempty
  · exact hempty.symm
  · rw [List.flatten_singleton]

theorem flatten_blocksOf (es : List Entry) : (blocksOf es).flatten = es := by
  rw [blocksOf, List.flatten_append, flatten_lastBlock, flatten_cutBlocks, List.nil_append]

theorem mem_lastBlock {pending c : List Entry} :
    c ∈ lastBlock pending ↔ pending ≠ [] ∧ c = pending := by
  unfold lastBlock
  split_ifs with hempty <;> simp [hempty]

theorem decides_pushBlocks (index : Bytes) (refs : List BlockRef) :
    Decides (Writer.pushBlocks index refs) (∀ r ∈ refs, r.firstKey.length < u32Limit)
      (index ++ refs.flatMap indexEntry) := by
  induction refs generalizing index with
  | nil =>
    rw [List.flatMap_nil, List.append_nil]
    exact (decides_ok _).congr (by simp)
  | cons r refs ih =>
    have hentry : index ++ (r :: refs).flatMap indexEntry
        = index ++ field r.firstKey ++ toLeBytes 8 r.offset ++ toLeBytes 4 r.len
          ++ refs.flatMap indexEntry := by simp [indexEntry]
    rw [hentry]
    exact ((decides_pushField index r.firstKey).bind fun _ => ih _).congr (by simp)

/-- Every length of the table fits its field. -/
structure Fits (es : List Entry) : Prop where
  blocks : ∀ c ∈ blocksOf es, BlockFits c
  filter : (withCrc (filterOf es).data).length < u32Limit
  index : (withCrc (indexOf es (blockRefs 0 (blocksOf es)))).length < u32Limit

/-- What `finish` does once the last block is closed. -/
theorem decides_finish (chunks : List (List Entry)) (pending : List Entry) :
    Decides (writer chunks pending).finish
      ((pending = [] ∨ BlockFits pending)
        ∧ (withCrc (filterOf (chunks.flatten ++ pending)).data).length < u32Limit
        ∧ (firstKey (chunks.flatten ++ pending)).length < u32Limit
        ∧ (lastKey (chunks.flatten ++ pending)).length < u32Limit
        ∧ (∀ r ∈ blockRefs 0 (chunks ++ lastBlock pending), r.firstKey.length < u32Limit)
        ∧ (withCrc (indexOf (chunks.flatten ++ pending)
            (blockRefs 0 (chunks ++ lastBlock pending)))).length < u32Limit)
      (fileOf (chunks.flatten ++ pending) (chunks ++ lastBlock pending)) := by
  have hflat : (chunks ++ lastBlock pending).flatten ++ [] = chunks.flatten ++ pending := by
    rw [List.append_nil, List.flatten_append, flatten_lastBlock]
  rw [← hflat]
  refine (decides_closeBlock chunks pending).bind fun _ => ?_
  generalize chunks ++ lastBlock pending = closed
  refine (decides_lengthOf _).bind fun _ => ?_
  refine (decides_pushField [] _).bind fun _ => ?_
  refine (decides_pushField _ _).bind fun _ => ?_
  refine (decides_pushBlocks _ _).bind fun _ => ?_
  refine Decides.congr ?_ (iff_of_eq (and_true _))
  exact (decides_lengthOf _).bind fun _ => decides_ok _

theorem length_field (bytes : Bytes) : (field bytes).length = 4 + bytes.length := by
  rw [field, List.length_append, length_toLeBytes]

theorem length_record (e : Entry) : (record e).length = recordLen e := by
  obtain ⟨key, seq, value⟩ := e
  cases value <;> simp [record, recordLen, length_field] <;> omega

/-- An entry that stands in a block that fits has fields that fit. -/
theorem BlockFits.fields {c : List Entry} (h : BlockFits c) {e : Entry} (he : e ∈ c) :
    FieldsFit e := by
  have hle : (record e).length ≤ (records c).length := by
    rw [records, List.length_flatMap]
    exact List.le_sum_of_mem (List.mem_map_of_mem he)
  unfold BlockFits at h
  rw [length_withCrc] at h
  rw [length_record, recordLen] at hle
  refine ⟨by omega, fun value hvalue => ?_⟩
  rw [hvalue, Option.elim_some] at hle
  omega

theorem firstKey_length_lt {es : List Entry} (h : ∀ e ∈ es, FieldsFit e) :
    (firstKey es).length < u32Limit := by
  cases es with
  | nil => decide
  | cons e es => exact (h e List.mem_cons_self).1

theorem lastKey_length_lt {es : List Entry} (h : ∀ e ∈ es, FieldsFit e) :
    (lastKey es).length < u32Limit := by
  cases es using List.reverseRecOn with
  | nil => decide
  | append_singleton es e =>
    rw [lastKey_concat]
    exact (h e (by simp)).1

theorem exists_of_mem_blockRefs {offset : ℕ} {chunks : List (List Entry)} {r : BlockRef}
    (h : r ∈ blockRefs offset chunks) : ∃ c ∈ chunks, r.firstKey = firstKey c := by
  induction chunks generalizing offset with
  | nil => cases h
  | cons c chunks ih =>
    rcases List.mem_cons.mp h with rfl | h
    · exact ⟨c, List.mem_cons_self, rfl⟩
    · obtain ⟨c', hc', hkey⟩ := ih h
      exact ⟨c', List.mem_cons_of_mem c hc', hkey⟩

/-- **Writing a table** gives its file if every length fits, and reports one that does not
otherwise. -/
theorem decides_writeTable (es : List Entry) :
    Decides (writeTable es) (Fits es) (fileOf es (blocksOf es)) := by
  have hadd : Decides (Writer.create.addAll es) _ _ := decides_addAll [] [] es
  have hflat := flatten_cutBlocks [] es
  have h : Decides (Writer.create.addAll es >>= Writer.finish) _ _ :=
    hadd.bind fun _ => decides_finish _ _
  simp only [List.nil_append] at h hflat
  rw [hflat] at h
  refine Decides.congr h ⟨?_, ?_⟩
  · rintro ⟨⟨hfields, hblocks⟩, hlast, hfilter, -, -, -, hindex⟩
    refine ⟨fun c hc => ?_, hfilter, hindex⟩
    rcases List.mem_append.mp hc with hc | hc
    · exact hblocks c hc
    · obtain ⟨hne, rfl⟩ := mem_lastBlock.mp hc
      exact hlast.resolve_left hne
  · intro hfits
    have hfields : ∀ c ∈ blocksOf es, ∀ e ∈ c, FieldsFit e :=
      fun c hc e => (hfits.blocks c hc).fields
    have hall : ∀ e ∈ es, FieldsFit e := by
      intro e he
      rw [← flatten_blocksOf es] at he
      obtain ⟨c, hc, he⟩ := List.mem_flatten.mp he
      exact hfields c hc e he
    refine ⟨⟨hall, fun c hc => hfits.blocks c (List.mem_append_left _ hc)⟩, ?_, hfits.filter,
      firstKey_length_lt hall, lastKey_length_lt hall, fun r hr => ?_, hfits.index⟩
    · by_cases hempty : (cutBlocks [] es).2 = []
      · exact Or.inl hempty
      · exact Or.inr (hfits.blocks _ (List.mem_append_right _ (mem_lastBlock.mpr ⟨hempty, rfl⟩)))
    · obtain ⟨c, hc, hkey⟩ := exists_of_mem_blockRefs hr
      rw [hkey]
      exact firstKey_length_lt (hfields c hc)

/-! ### Lengths without the bytes -/

/-- A writer without the bytes it wrote. -/
def lengths (w : Writer) : Lsmkv.Writer where
  block := w.block.length
  blocks := w.blocks.map BlockRef.firstKey
  firstKey := w.firstKey
  minKey := w.minKey
  maxKey := w.maxKey
  offset := w.offset
  entries := w.entries

theorem lengths_closeBlock (chunks : List (List Entry)) (pending : List Entry) :
    (lengths (writer chunks pending)).closeBlock
    = lengths (writer (chunks ++ lastBlock pending) []) := by
  unfold Lsmkv.Writer.closeBlock
  have hblock : (lengths (writer chunks pending)).block = 0 ↔ pending = [] :=
    List.length_eq_zero_iff.trans records_eq_nil_iff
  by_cases hempty : pending = []
  · rw [if_pos (hblock.mpr hempty), hempty, lastBlock, if_pos rfl, List.append_nil]
  · rw [if_neg (mt hblock.mp hempty), lastBlock, if_neg hempty, ← writer_closed]
    simp [lengths, writer, Writer.write, length_withCrc]

theorem lengths_add (chunks : List (List Entry)) (pending : List Entry) (e : Entry) :
    (lengths (writer chunks pending)).add e
      = lengths (if blockSize ≤ (records (pending ++ [e])).length then
          writer (chunks ++ [pending ++ [e]]) [] else writer chunks (pending ++ [e])) := by
  have hblock : (records (pending ++ [e])).length = (records pending).length + recordLen e := by
    rw [records_concat, List.length_append, length_record]
  have hfirst : firstKey (pending ++ [e])
      = if (records pending).length = 0 then e.key else firstKey pending := by
    rw [firstKey_concat]
    simp only [List.length_eq_zero_iff, records_eq_nil_iff]
  have hmin : firstKey (chunks.flatten ++ (pending ++ [e]))
      = if (chunks.flatten ++ pending).length = 0 then e.key
        else firstKey (chunks.flatten ++ pending) := by
    rw [← List.append_assoc, firstKey_concat]
    simp only [List.length_eq_zero_iff]
  have hmax : lastKey (chunks.flatten ++ (pending ++ [e])) = e.key := by
    rw [← List.append_assoc, lastKey_concat]
  have hentries :
      (chunks.flatten ++ (pending ++ [e])).length = (chunks.flatten ++ pending).length + 1 := by
    rw [← List.append_assoc, List.length_append, List.length_singleton]
  have hnext : (lengths (writer chunks pending)).add e
      = if blockSize ≤ (records (pending ++ [e])).length then
          (lengths (writer chunks (pending ++ [e]))).closeBlock
        else lengths (writer chunks (pending ++ [e])) := by
    simp only [lengths, writer, Lsmkv.Writer.add, hblock, hfirst, hmin, hmax, hentries]
    rfl
  have hne : pending ++ [e] ≠ [] := List.append_ne_nil_of_right_ne_nil _ (List.cons_ne_nil _ _)
  rw [hnext, apply_ite lengths, lengths_closeBlock, lastBlock, if_neg hne]

/-- The lengths of a writer are followed by the writer that keeps only those. -/
theorem lengths_addAll (chunks : List (List Entry)) (pending es : List Entry) :
    es.foldl Lsmkv.Writer.add (lengths (writer chunks pending))
      = lengths (writer (chunks ++ (cutBlocks pending es).1) (cutBlocks pending es).2) := by
  induction es generalizing chunks pending with
  | nil => rw [cutBlocks, List.append_nil, List.foldl_nil]
  | cons e es ih =>
    rw [List.foldl_cons, lengths_add, cutBlocks]
    split_ifs with hfull
    · rw [ih, List.append_assoc]
      rfl
    · rw [ih]

theorem firstKeys_blockRefs (offset : ℕ) (chunks : List (List Entry)) :
    (blockRefs offset chunks).map BlockRef.firstKey = chunks.map firstKey := by
  induction chunks generalizing offset with
  | nil => rfl
  | cons c chunks ih => rw [blockRefs, List.map_cons, ih, List.map_cons]

theorem length_indexOf (es : List Entry) (refs : List BlockRef) :
    (indexOf es refs).length = (4 + (firstKey es).length) + (4 + (lastKey es).length)
      + (refs.map fun r => (4 + r.firstKey.length) + 8 + 4).sum := by
  have hentry : ∀ r, (indexEntry r).length = (4 + r.firstKey.length) + 8 + 4 := fun r => by
    simp [indexEntry, length_field]
  rw [indexOf, List.length_append, List.length_append, length_field, length_field,
    List.length_flatMap]
  simp only [hentry]

theorem length_filterOf (es : List Entry) : (filterOf es).data.length = bloomLen es.length := by
  rw [filterOf, Bloom.length_data_build, List.length_map]
  rfl

/-- **The size of a table** is the one the entry-level writer computes. -/
theorem length_fileOf (es : List Entry) :
    (fileOf es (blocksOf es)).length = (es.foldl Lsmkv.Writer.add Lsmkv.Writer.create).finish := by
  have hcreate : Lsmkv.Writer.create = lengths (writer [] []) := rfl
  have hflat : (blocksOf es).flatten ++ [] = es := by rw [List.append_nil, flatten_blocksOf]
  rw [hcreate, lengths_addAll, Lsmkv.Writer.finish, lengths_closeBlock, List.nil_append,
    ← blocksOf]
  simp only [lengths, writer, hflat, List.map_map, fileOf, List.length_append, length_withCrc,
    length_indexOf, length_filterOf, footerOf, length_toLeBytes]
  simp only [Function.comp_def, footerLen, crcLen, magic, List.length_cons, List.length_nil]

/-! ### Against the limits of the log

The log bounds the payload of a record, which is what a block holds of an entry.  The table bounds
the block that holds it, with what was in the block before and the checksum, and an index that
repeats keys. -/

theorem length_records (es : List Entry) : (records es).length = (es.map recordLen).sum := by
  rw [records, List.length_flatMap]
  simp only [length_record]

/-- The lengths of a table fit their fields. -/
theorem fits_iff (es : List Entry) :
    Fits es ↔ (∀ c ∈ blocksOf es, (c.map recordLen).sum + crcLen < u32Limit)
      ∧ bloomLen es.length + crcLen < u32Limit
      ∧ (4 + (firstKey es).length) + (4 + (lastKey es).length)
          + ((blocksOf es).map fun c => (4 + (firstKey c).length) + 8 + 4).sum + crcLen
            < u32Limit := by
  have hblocks : ∀ c, BlockFits c ↔ (c.map recordLen).sum + crcLen < u32Limit := fun c => by
    rw [BlockFits, length_withCrc, length_records]
  have hfilter : (withCrc (filterOf es).data).length = bloomLen es.length + crcLen := by
    rw [length_withCrc, length_filterOf]
  have hindex : (withCrc (indexOf es (blockRefs 0 (blocksOf es)))).length
      = (4 + (firstKey es).length) + (4 + (lastKey es).length)
        + ((blocksOf es).map fun c => (4 + (firstKey c).length) + 8 + 4).sum + crcLen := by
    have hkeys := congrArg (List.map fun key : Bytes => (4 + key.length) + 8 + 4)
      (firstKeys_blockRefs 0 (blocksOf es))
    rw [List.map_map, List.map_map] at hkeys
    rw [length_withCrc, length_indexOf]
    exact congrArg (_ + List.sum · + crcLen) hkeys
  rw [← hfilter, ← hindex]
  refine ⟨fun h => ⟨fun c hc => (hblocks c).mp (h.blocks c hc), h.filter, h.index⟩, ?_⟩
  rintro ⟨h, hf, hi⟩
  exact ⟨fun c hc => (hblocks c).mpr (h c hc), hf, hi⟩

/-- An entry whose payload the log takes, in a block of its own that is one byte too long. -/
theorem writeTable_singleton_tooLarge {value : Bytes} (hvalue : value.length = u32Limit - 18) :
    ∃ len, writeTable [⟨[], 1, some value⟩] = .error (.tooLarge len) := by
  have hrecord : recordLen ⟨[], 1, some value⟩ = u32Limit - 1 := by
    have : 18 ≤ u32Limit := by decide
    simp only [recordLen, Option.elim_some, List.length_nil, hvalue]
    omega
  have hblocks : [⟨[], 1, some value⟩] ∈ blocksOf [⟨[], 1, some value⟩] := by
    have hlarge : blockSize ≤ (records [⟨[], 1, some value⟩]).length := by
      rw [length_records, List.map_singleton, List.sum_singleton, hrecord]
      decide
    rw [blocksOf, cutBlocks, List.nil_append, if_pos hlarge]
    exact List.mem_append_left _ List.mem_cons_self
  refine (decides_writeTable _).tooLarge fun hfits => ?_
  have hlt := ((fits_iff _).mp hfits).1 _ hblocks
  rw [List.map_singleton, List.sum_singleton, hrecord] at hlt
  exact absurd hlt (by decide)

/-- **When a table can be written.**  No length is reported as too large exactly when every block
fits with its checksum, and the filter and the index do. -/
theorem writeTable_ne_tooLarge_iff (es : List Entry) :
    (∀ len, writeTable es ≠ .error (.tooLarge len)) ↔
      (∀ c ∈ blocksOf es, (c.map recordLen).sum + crcLen < u32Limit)
        ∧ bloomLen es.length + crcLen < u32Limit
        ∧ (4 + (firstKey es).length) + (4 + (lastKey es).length)
          + ((blocksOf es).map fun c => (4 + (firstKey c).length) + 8 + 4).sum + crcLen
            < u32Limit := by
  rw [← fits_iff, ← not_exists, (decides_writeTable es).tooLarge_iff, not_not]

/-- Not every list of entries the log takes can be written out. -/
theorem exists_logged_tooLarge :
    ¬ ∀ es : List Entry, es.Pairwise (fun e f => e.key < f.key) →
      (∀ e ∈ es, (Record.encode [] e.seq e.key e.value).1 = .ok ()) →
      ∀ len, writeTable es ≠ .error (.tooLarge len) := by
  intro h
  obtain ⟨value, hvalue⟩ : ∃ value : Bytes, value.length = u32Limit - 18 :=
    ⟨List.replicate (u32Limit - 18) 0, List.length_replicate⟩
  obtain ⟨len, hlen⟩ := writeTable_singleton_tooLarge hvalue
  refine h _ (List.pairwise_singleton _ _) (fun e he => ?_) len hlen
  obtain rfl := List.mem_singleton.mp he
  have hpayload : (Record.payload ⟨[], 1, some value⟩).length < u32Limit := by
    have : 18 ≤ u32Limit := by decide
    rw [Record.length_payload, Option.elim_some, hvalue, List.length_nil]
    omega
  exact congrArg Prod.fst (Record.encode_of_fits [] hpayload)

end Lsmkv.Sst
