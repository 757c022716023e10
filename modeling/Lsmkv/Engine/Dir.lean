import Mathlib.Data.List.AList
import Mathlib.Data.List.Sort
import Lsmkv.Engine.State
import Lsmkv.Wal.Recover

/-!
# The data directory

The files of a store by kind and number.  A file under its final or its temporary name is `none`
while it is being written and `some` content once it is complete; only complete tables can be
opened and only a complete manifest loads.  Log files are byte strings.

`Listing.scan`, `loadManifest` and `openLevels` are the parts of `Engine::open` that read the
directory; the operations by which it changes the directory are `FsOp`s.
-/

namespace Lsmkv

/-- Files of one kind, by number. -/
abbrev FileMap (α : Type) := AList fun _ : ℕ => α

/-- A data directory. -/
structure Dir where
  /-- `NNNNNN.wal`. -/
  logs : FileMap Bytes
  /-- `NNNNNN.sst`. -/
  tables : FileMap (Option SsTable)
  /-- `NNNNNN.sst.tmp`. -/
  partials : FileMap (Option SsTable)
  /-- `MANIFEST`. -/
  manifest : Option (Option Snapshot)
  /-- `MANIFEST.tmp`. -/
  manifestTemp : Option (Option Snapshot)

/-- An operation on the directory that takes effect at once. -/
inductive FsOp where
  | removePartial (number : ℕ)
  | removeManifestTemp
  | removeTable (number : ℕ)
  | setLog (number : ℕ) (content : Bytes)
  deriving DecidableEq, Repr

namespace Dir

/-- A directory that was just created. -/
def empty : Dir := ⟨∅, ∅, ∅, none, none⟩

/-- What the operation leaves. -/
def apply (dir : Dir) : FsOp → Dir
  | .removePartial number => { dir with partials := dir.partials.erase number }
  | .removeManifestTemp => { dir with manifestTemp := none }
  | .removeTable number => { dir with tables := dir.tables.erase number }
  | .setLog number content => { dir with logs := dir.logs.insert number content }

/-- What a sequence of operations leaves. -/
def applyAll (dir : Dir) (ops : List FsOp) : Dir := ops.foldl apply dir

/-- Rewrites a log through an open handle: a log that was removed meanwhile stays removed. -/
def writeLog (dir : Dir) (number : ℕ) (content : Bytes) : Dir :=
  if number ∈ dir.logs then { dir with logs := dir.logs.insert number content } else dir

end Dir

/-- What a data directory holds, by file number. -/
structure Listing where
  logs : List ℕ
  tables : List ℕ
  /-- Removal of the files a crash left half-written. -/
  leftovers : List FsOp
  nextNumber : ℕ
  deriving DecidableEq, Repr

/-- `Listing::scan`. -/
def Listing.scan (dir : Dir) : Listing where
  logs := dir.logs.keys.insertionSort (· ≤ ·)
  tables := dir.tables.keys.insertionSort (· ≤ ·)
  leftovers := dir.partials.keys.map .removePartial
    ++ (if dir.manifestTemp.isSome then [.removeManifestTemp] else [])
  nextNumber :=
    match (dir.logs.keys ++ dir.tables.keys).max? with
    | none => 1
    | some highest => highest + 1

/-- `Manifest::load`, and what `Engine::open` makes of a missing manifest. -/
def loadManifest (dir : Dir) : Except Error Snapshot :=
  match dir.manifest with
  | some (some snapshot) => .ok snapshot
  | some none => .error (.corrupt .manifest "not a readable manifest")
  | none =>
    if (Listing.scan dir).tables = [] then .ok Snapshot.default
    else .error (.corrupt .dir "tables are present but the manifest naming them is gone")

/-- `SsTable::open`. -/
def openTable (dir : Dir) (number : ℕ) : Except Error SsTable :=
  match dir.tables.lookup number with
  | none => .error (.io (.table number))
  | some none => .error (.corrupt (.table number) "not a sorted table")
  | some (some table) => .ok table

/-- The files of a snapshot, opened and pushed to their levels in the order of their numbers. -/
def pushTables (dir : Dir) : List FileMeta → List (List Table) → Except Error (List (List Table))
  | [], levels => .ok levels
  | file :: files, levels => do
    let table ← openTable dir file.number
    pushTables dir files (levels.modify file.level (· ++ [⟨file, table⟩]))

/-- Opens every file the snapshot names, sorted the way each level wants. -/
def openLevels (dir : Dir) (snapshot : Snapshot) : Except Error (List (List Table)) := do
  let levels := List.replicate (snapshot.deepestLevel + 1) []
  let files := snapshot.files.insertionSort fun l r => l.number ≤ r.number
  let levels ← pushTables dir files levels
  let levels := levels.modify 0 List.reverse
  .ok (levels.mapIdx fun i level =>
    if i = 0 then level else level.insertionSort fun l r => l.file.minKey ≤ r.file.minKey)

/-! ### Listings -/

theorem mem_scan_logs {dir : Dir} {n : ℕ} : n ∈ (Listing.scan dir).logs ↔ n ∈ dir.logs := by
  rw [Listing.scan, List.mem_insertionSort, AList.mem_keys]

theorem mem_scan_tables {dir : Dir} {n : ℕ} : n ∈ (Listing.scan dir).tables ↔ n ∈ dir.tables := by
  rw [Listing.scan, List.mem_insertionSort, AList.mem_keys]

theorem scan_logs_sorted (dir : Dir) : (Listing.scan dir).logs.Pairwise (· < ·) := by
  have hle : (Listing.scan dir).logs.Pairwise (· ≤ ·) := List.pairwise_insertionSort _ _
  have hnodup : (Listing.scan dir).logs.Nodup :=
    (List.perm_insertionSort _ _).nodup_iff.mpr dir.logs.keys_nodup
  exact (hle.and hnodup).imp fun h => lt_of_le_of_ne h.1 h.2

/-- The next number is past every log and table. -/
theorem lt_scan_nextNumber {dir : Dir} {n : ℕ} (h : n ∈ dir.logs ∨ n ∈ dir.tables) :
    n < (Listing.scan dir).nextNumber := by
  have hmem : n ∈ dir.logs.keys ++ dir.tables.keys := by
    rw [List.mem_append, ← AList.mem_keys, ← AList.mem_keys]
    exact h
  rw [Listing.scan]
  dsimp only
  cases hmax : (dir.logs.keys ++ dir.tables.keys).max? with
  | none =>
    rw [List.max?_eq_none_iff] at hmax
    rw [hmax] at hmem
    cases hmem
  | some highest => exact Nat.lt_succ_of_le ((List.max?_eq_some_iff.mp hmax).2 n hmem)

/-- A strictly sorted list with the members of the directory is the listing of its logs. -/
theorem scan_logs_eq {dir : Dir} {ns : List ℕ} (hsorted : ns.Pairwise (· < ·))
    (hmem : ∀ n, n ∈ ns ↔ n ∈ dir.logs) : (Listing.scan dir).logs = ns := by
  have hperm : (Listing.scan dir).logs.Perm ns := by
    rw [List.perm_ext_iff_of_nodup]
    · intro n
      rw [mem_scan_logs, hmem]
    · exact (List.perm_insertionSort _ _).nodup_iff.mpr dir.logs.keys_nodup
    · exact hsorted.imp ne_of_lt
  exact hperm.eq_of_pairwise (fun a b _ _ hab hba => le_antisymm hab hba)
    (List.pairwise_insertionSort (· ≤ ·) _) (hsorted.imp le_of_lt)

end Lsmkv
