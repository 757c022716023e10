import Lsmkv.Sstable

/-!
# The manifest (`manifest.rs`)

`Snapshot` is the state the manifest records: the live files, the highest sequence number used and
the next file number.  `FileMeta.Describes m t` says that the record `m` is the one of the
table `t`.
-/

namespace Lsmkv

/-- One file the store holds. -/
structure FileMeta where
  number : ℕ
  level : ℕ
  minKey : Bytes
  maxKey : Bytes
  bytes : ℕ
  entries : ℕ
  deriving DecidableEq, Repr

namespace FileMeta

/-- Whether the file's key range touches `[min, max]`. -/
def overlaps (file : FileMeta) (min max : Bytes) : Bool := file.minKey ≤ max && min ≤ file.maxKey

/-- Whether the file's key range holds `key`. -/
def covers (file : FileMeta) (key : Bytes) : Bool := file.minKey ≤ key && key ≤ file.maxKey

theorem covers_iff {file : FileMeta} {key : Bytes} :
    file.covers key = true ↔ file.minKey ≤ key ∧ key ≤ file.maxKey := by
  rw [covers, Bool.and_eq_true, decide_eq_true_iff, decide_eq_true_iff]

/-- What the manifest records about a file just written (`meta_of`). -/
def metaOf (number level : ℕ) (table : SsTable) : FileMeta where
  number := number
  level := level
  minKey := table.minKey
  maxKey := table.maxKey
  bytes := table.sizeBytes
  entries := table.entries

/-- The record is the one of the table. -/
def Describes (file : FileMeta) (table : SsTable) : Prop :=
  file = metaOf file.number file.level table

theorem describes_metaOf (number level : ℕ) (table : SsTable) :
    (metaOf number level table).Describes table := rfl

/-- A file covers every key of its table. -/
theorem Describes.covers {file : FileMeta} {table : SsTable} (h : file.Describes table) {e : Entry}
    (he : e ∈ table.run.entries) : file.covers e.key = true := by
  rw [h, covers_iff]
  exact SsTable.key_bounds he

end FileMeta

/-- The complete state of a store. -/
structure Snapshot where
  files : List FileMeta
  lastSeq : ℕ
  nextNumber : ℕ
  deriving DecidableEq, Repr

namespace Snapshot

/-- `Snapshot::default`. -/
def default : Snapshot := ⟨[], 0, 0⟩

/-- Files at `level`. -/
def atLevel (snapshot : Snapshot) (level : ℕ) : List FileMeta :=
  snapshot.files.filter fun file => file.level = level

/-- Deepest level holding a file. -/
def deepestLevel (snapshot : Snapshot) : ℕ :=
  (snapshot.files.map FileMeta.level).max?.getD 0

/-- Bytes held at `level`, all of them. -/
def exactBytesAtLevel (snapshot : Snapshot) (level : ℕ) : ℕ :=
  ((snapshot.atLevel level).map FileMeta.bytes).sum

/-- Bytes held at `level`.  The sum is a `u64`, which wraps around in a release build. -/
def bytesAtLevel (snapshot : Snapshot) (level : ℕ) : ℕ :=
  snapshot.exactBytesAtLevel level % u64Limit

theorem bytesAtLevel_eq {snapshot : Snapshot} {level : ℕ}
    (h : snapshot.exactBytesAtLevel level < u64Limit) :
    snapshot.bytesAtLevel level = snapshot.exactBytesAtLevel level := Nat.mod_eq_of_lt h

theorem mem_atLevel {snapshot : Snapshot} {level : ℕ} {file : FileMeta} :
    file ∈ snapshot.atLevel level ↔ file ∈ snapshot.files ∧ file.level = level := by
  simp [atLevel]

theorem level_le_deepestLevel {snapshot : Snapshot} {file : FileMeta}
    (h : file ∈ snapshot.files) : file.level ≤ snapshot.deepestLevel := by
  have hmem : file.level ∈ snapshot.files.map FileMeta.level := List.mem_map_of_mem h
  unfold deepestLevel
  cases hmax : (snapshot.files.map FileMeta.level).max? with
  | none =>
    rw [List.max?_eq_none_iff] at hmax
    rw [hmax] at hmem
    cases hmem
  | some deepest => exact (List.max?_eq_some_iff.mp hmax).2 _ hmem

end Snapshot

end Lsmkv
