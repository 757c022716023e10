import Lsmkv.Compaction.WriteMerged
import Lsmkv.Engine.Dir
import Lsmkv.Wal.Shared

/-!
# The engine (`engine.rs`)

What an open store holds in memory, and `Engine::open`.

A flush and a compaction do the same thing to the file set: they write output tables under
temporary names, rename them, commit a new snapshot through the manifest, publish it in memory and
remove what the outputs replaced.  `Job` is that task in progress and `JobPc` the lock boundary it
has reached; `Target` holds what the two do differently.  The flush thread runs one flush at a time
and the `compacting` lock admits one compaction, so there is one slot for each.

The file operations of `Engine::open` are listed in `openPlan` together with its result, so that a
process can be killed between any two of them.
-/

namespace Lsmkv

/-- How a store is opened. -/
structure Config where
  sync : Wal.SyncPolicy
  memtableBytes : ℕ
  l0Trigger : ℕ
  fanout : ℕ
  deriving DecidableEq, Repr

namespace Config

/-- Size a compaction cuts its output files at. -/
def targetBytes (config : Config) : ℕ := Compaction.saturate config.memtableBytes

/-- Byte budget of level 1. -/
def levelBytes (config : Config) : ℕ := Compaction.saturate (config.targetBytes * config.fanout)

end Config

/-! ### Flushes and compactions -/

/-- The two background tasks. -/
inductive Slot where
  | flush
  | compact
  deriving DecidableEq, Repr

/-- What a task was started for. -/
inductive Target where
  | flush (frozen : Frozen)
  | compact (snapshot : Snapshot) (plan : Plan)

/-- How far an output file has come. -/
inductive Phase where
  | allocated
  | created
  | finished
  | renamed
  deriving DecidableEq, Repr

/-- An output file being written. -/
structure Output where
  number : ℕ
  run : Run Bytes Bytes
  phase : Phase

/-- A task that writes tables: the outputs not begun, the one being written, those that are open. -/
structure Job where
  target : Target
  todo : List (Run Bytes Bytes)
  current : Option Output
  outputs : List Table

/-- How far the manifest has come. -/
inductive CommitPhase where
  | locked
  | created
  | written
  | renamed
  deriving DecidableEq, Repr

/-- Where a task stands. -/
inductive JobPc where
  | idle
  /-- A compaction that cloned the snapshot and made its plan. -/
  | planned (snapshot : Snapshot) (plan : Plan)
  | writing (job : Job)
  /-- In `commit`, past the read of the last sequence number. -/
  | ready (job : Job) (lastSeq : ℕ)
  /-- In `commit`, holding the durable state. -/
  | committing (job : Job) (next : Snapshot) (phase : CommitPhase)
  /-- Removing what the outputs replaced. -/
  | unlinking (target : Target) (numbers : List ℕ)

namespace Target

/-- The level the outputs go to. -/
def level : Target → ℕ
  | flush _ => 0
  | compact _ plan => plan.outputLevel

/-- The tables the outputs replace. -/
def removed : Target → List ℕ
  | flush _ => []
  | compact _ plan => plan.inputNumbers

/-- The files to remove once the outputs are committed: logs after a flush, tables after a
compaction. -/
def unlinks : Target → List ℕ
  | flush frozen => frozen.logs
  | compact _ plan => plan.inputNumbers

/-- How the outputs are published in memory. -/
def publish (outputs : List Table) (s : State) : Target → State
  | flush _ => { s with levels := s.levels.modify 0 (outputs ++ ·), frozen := s.frozen.dropLast }
  | compact _ plan => (s.remove plan.inputNumbers).insert plan.outputLevel outputs

/-- A publication freezes nothing. -/
theorem mem_frozen_of_publish {target : Target} {outputs : List Table} {s : State} {f : Frozen}
    (hf : f ∈ (target.publish outputs s).frozen) : f ∈ s.frozen := by
  cases target with
  | flush => exact List.mem_of_mem_dropLast hf
  | compact => exact hf

end Target

/-- The tables a compaction reads. -/
def State.inputTables (s : State) (plan : Plan) : List SsTable :=
  plan.inputs.filterMap fun file => s.find file.number

/-- The snapshot `commit` stores. -/
def Snapshot.change (snapshot : Snapshot) (added : List FileMeta) (removed : List ℕ)
    (lastSeq nextNumber : ℕ) : Snapshot where
  files := snapshot.files.filter (fun file => file.number ∉ removed) ++ added
  lastSeq := max snapshot.lastSeq lastSeq
  nextNumber := nextNumber

/-! ### The open store -/

/-- An open store. -/
structure Engine where
  config : Config
  /-- The current log and its file number. -/
  wal : Wal.Shared
  walNumber : ℕ
  /-- Clients that hold the log for reading. -/
  readers : List ℕ
  /-- The log a rotation is creating, while it holds the log for writing. -/
  rotating : Option ℕ
  /-- Logs a rotation replaced and has not dropped yet. -/
  retired : List (ℕ × Wal.Shared)
  /-- The file set as it was last committed. -/
  snapshot : Snapshot
  state : State
  nextNumber : ℕ
  /-- Frozen memtables the flush thread knows of. -/
  pending : ℕ
  jobs : Slot → JobPc

namespace Engine

/-- `Engine::get`. -/
def get (e : Engine) (key : Bytes) : Option Bytes := e.state.get key

/-- `Engine::last_sequence`. -/
def lastSequence (e : Engine) : ℕ := e.wal.lastSeq

/-- Whether a task holds the durable state. -/
def durableFree (e : Engine) : Bool :=
  match e.jobs .flush, e.jobs .compact with
  | .committing _ _ _, _ => false
  | _, .committing _ _ _ => false
  | _, _ => true

/-- Replays the logs that are not the newest. -/
def replayLogs (dir : Dir) : List ℕ → Memtable → ℕ → Except Error (Memtable × ℕ)
  | [], active, lastSeq => .ok (active, lastSeq)
  | number :: rest, active, lastSeq => do
    let replay ← Replay.openFile number (dir.logs.lookup number)
    let records := replay.records.1
    let active := records.foldl (fun m e => (m.insert e).1) active
    let lastSeq := records.foldl (fun last e => max last e.seq) lastSeq
    replayLogs dir rest active lastSeq

/-- A store right after `Engine::open`. -/
def opened (config : Config) (walNumber : ℕ) (r : Wal.Recovered) (active : Memtable)
    (activeLogs : List ℕ) (snapshot : Snapshot) (levels : List (List Table)) (nextNumber : ℕ) :
    Engine where
  config := config
  wal := Wal.Shared.new config.sync r
  walNumber := walNumber
  readers := []
  rotating := none
  retired := []
  snapshot := snapshot
  state := ⟨active, activeLogs, [], levels⟩
  nextNumber := nextNumber
  pending := 0
  jobs := fun _ => .idle

/-- The end of `Engine::open`: the logs are replayed into the active table. -/
def openLogs (dir : Dir) (config : Config) (snapshot : Snapshot) (levels : List (List Table))
    (nextNumber : ℕ) : List FsOp × Except Error Engine :=
  match (Listing.scan dir).logs.getLast? with
  | some newest =>
    let older := (Listing.scan dir).logs.dropLast
    match replayLogs dir older Memtable.new snapshot.lastSeq with
    | .error err => ([], .error err)
    | .ok (active, lastSeq) =>
      match Wal.recover newest (dir.logs.lookup newest) lastSeq with
      | .error err => ([], .error err)
      | .ok r =>
        let active := r.records.foldl (fun m e => (m.insert e).1) active
        ((Wal.recoverSteps newest (dir.logs.lookup newest)).map (.setLog newest),
          .ok (opened config newest r active (older ++ [newest]) snapshot levels nextNumber))
  | none =>
    match Wal.recover nextNumber (dir.logs.lookup nextNumber) snapshot.lastSeq with
    | .error err => ([], .error err)
    | .ok r =>
      ((Wal.recoverSteps nextNumber (dir.logs.lookup nextNumber)).map (.setLog nextNumber),
        .ok (opened config nextNumber r Memtable.new [nextNumber] snapshot levels (nextNumber + 1)))

/-- The first operations of `Engine::open`: what a crash left half-written goes, and so do the
tables the manifest does not name. -/
def cleanup (dir : Dir) (snapshot : Snapshot) : List FsOp :=
  let listing := Listing.scan dir
  let orphans := listing.tables.filter fun number =>
    !snapshot.files.any fun file => file.number = number
  listing.leftovers ++ orphans.map .removeTable

/-- `Engine::open`: the operations it performs on the directory, and its result. -/
def openPlan (dir : Dir) (config : Config) : List FsOp × Except Error Engine :=
  let listing := Listing.scan dir
  match loadManifest dir with
  | .error err => (listing.leftovers, .error err)
  | .ok snapshot =>
    let ops := cleanup dir snapshot
    let dir := dir.applyAll ops
    match openLevels dir snapshot with
    | .error err => (ops, .error err)
    | .ok levels =>
      let (logOps, result) := openLogs dir config snapshot levels
        (max listing.nextNumber snapshot.nextNumber)
      (ops ++ logOps, result)

end Engine

end Lsmkv
