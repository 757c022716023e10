import Lsmkv.Engine.Core
import Lsmkv.Lib.Transition

/-!
# The running store

A store is a data directory and, between `Engine::open` and a kill or a drop, an engine with its
client threads, its logs and its two background tasks.  `Action` lists what can happen next, each
action being one stretch of the code between two points where another thread or a crash can come
in: a lock taken or released, an operation on the directory done.  `World.step` is partial: an
action that is not possible in a state has no successor.

Failures are actions of their own.  `Action.fail` ends a background task with an error at whatever
point it has reached, `Action.rotateFail` is a rotation whose `Wal::create` failed, and the events
of a log carry the outcomes of its writes and flushes.

`History` records what the specification speaks about and no branch of the code reads: the map the
session started with, its mutations in the order of their sequence numbers with the log that holds
them, those inserted into the memtable, and those an `Engine::sync` has covered.
-/

namespace Lsmkv

/-- What can happen next. -/
inductive Action where
  /-- A client calls `set` or `delete` and takes the log for reading. -/
  | write (client : ℕ) (key : Bytes) (value : Option Bytes)
  /-- A client calls `sync` and takes the log for reading. -/
  | sync (client : ℕ)
  /-- A thread inside the current log moves. -/
  | wal (thread : Wal.Thread) (event : Wal.Event)
  /-- A client whose append returned inserts the mutation into the active memtable. -/
  | insert (client : ℕ)
  /-- A client lets go of the log. -/
  | leave (client : ℕ)
  /-- `rotate` takes its locks and, if there is something to freeze, a number. -/
  | rotate (minBytes : ℕ)
  /-- The file of the new log goes through one of the contents `Wal::create` gives it. -/
  | rotateWrite (index : ℕ)
  /-- `Wal::create` succeeded; the log and the memtable are swapped. -/
  | rotateSwap
  /-- `Wal::create` failed. -/
  | rotateFail
  /-- A thread inside a log that was replaced moves. -/
  | oldWal (number : ℕ) (thread : Wal.Thread) (event : Wal.Event)
  /-- A log that was replaced is dropped. -/
  | dropLog (number : ℕ) (fault : Option ℕ)
  /-- The flush thread takes the oldest frozen memtable. -/
  | take
  /-- A compaction clones the snapshot and plans. -/
  | plan
  /-- A compaction looks its inputs up. -/
  | find
  | alloc (slot : Slot)
  | create (slot : Slot)
  | finish (slot : Slot)
  | rename (slot : Slot)
  | openOutput (slot : Slot)
  | ready (slot : Slot)
  | lock (slot : Slot)
  | createManifest (slot : Slot)
  | writeManifest (slot : Slot)
  | renameManifest (slot : Slot)
  | publish (slot : Slot)
  | unlink (slot : Slot)
  | done (slot : Slot)
  /-- An operation of the task fails, and the task with it. -/
  | fail (slot : Slot)
  /-- The process is killed; each log may have been caught writing part of its buffer. -/
  | kill (cut : ℕ → ℕ)
  /-- The engine is dropped. -/
  | close (fault : Option ℕ)
  | openStore (config : Config)
  /-- The process is killed after so many operations of `Engine::open`. -/
  | openKilled (config : Config) (count : ℕ)

/-- The events by which a thread moves on inside a log. -/
def Wal.Event.internal : Wal.Thread → Wal.Event → Bool
  | _, .append _ _ => false
  | _, .resume => false
  | .client _, .sync => false
  | _, _ => true

/-- Whether no operation of an action fails. -/
def Action.faultless : Action → Bool
  | .wal _ event => event.faultless
  | .oldWal _ _ event => event.faultless
  | .dropLog _ fault => fault.isNone
  | .close fault => fault.isNone
  | .rotateFail => false
  | .fail _ => false
  | _ => true

/-- Whether an action drops the engine. -/
def Action.isClose : Action → Bool
  | .close _ => true
  | _ => false

/-- Whether an action kills the process that has the store open. -/
def Action.isKill : Action → Bool
  | .kill _ => true
  | _ => false

/-- Whether nothing but the background tasks can fail in an action. -/
def Action.onlyTasksFail : Action → Bool
  | .fail _ => true
  | .kill _ => false
  | action => action.faultless

/-- A directory and the engine that has it open. -/
abbrev Opened := Dir × Engine

namespace Engine

/-- Moves a background task. -/
def setJob (e : Engine) (slot : Slot) (pc : JobPc) : Engine :=
  { e with jobs := Function.update e.jobs slot pc }

/-- The logs the process has open, with their numbers. -/
def openLogFiles (e : Engine) : List (ℕ × Wal.Shared) := e.retired ++ [(e.walNumber, e.wal)]

/-- A client enters the log. -/
def enter (dir : Dir) (e : Engine) (client : ℕ) (event : Wal.Event) : Option Opened :=
  if e.rotating = none ∧ client ∉ e.readers then
    (e.wal.step (.client client, event)).map fun wal =>
      (dir, { e with wal := wal, readers := client :: e.readers })
  else none

/-- A thread inside the current log moves. -/
def walStep (dir : Dir) (e : Engine) (thread : Wal.Thread) (event : Wal.Event) : Option Opened :=
  if event.internal thread then
    (e.wal.step (thread, event)).map fun wal =>
      (dir.writeLog e.walNumber wal.file, { e with wal := wal })
  else none

/-- The mutation of a client whose append returned becomes visible. -/
def insertStep (dir : Dir) (e : Engine) (client : ℕ) : Option Opened :=
  match e.wal.thread (.client client) with
  | .returned entry =>
    (e.wal.step (.client client, .resume)).map fun wal =>
      (dir, { e with wal := wal, state.active := (e.state.active.insert entry).1 })
  | _ => none

/-- A client lets go of the log. -/
def leaveStep (dir : Dir) (e : Engine) (client : ℕ) : Option Opened :=
  if client ∈ e.readers ∧ e.wal.thread (.client client) = .idle then
    some (dir, { e with readers := e.readers.erase client })
  else none

/-- `rotate`, up to the creation of the new log. -/
def rotateStep (dir : Dir) (e : Engine) (minBytes : ℕ) : Option Opened :=
  if e.readers = [] ∧ e.rotating = none then
    if e.state.active.isEmpty ∨ e.state.active.approxBytes < minBytes then some (dir, e)
    else some (dir, { e with rotating := some e.nextNumber, nextNumber := e.nextNumber + 1 })
  else none

/-- The file of the new log while `Wal::create` writes it. -/
def rotateWriteStep (dir : Dir) (e : Engine) (index : ℕ) : Option Opened :=
  match e.rotating with
  | none => none
  | some number =>
    (Wal.recoverSteps number (dir.logs.lookup number))[index]?.map fun content =>
      (dir.apply (.setLog number content), e)

/-- The rest of `rotate`, once `Wal::create` succeeded. -/
def rotateSwapStep (dir : Dir) (e : Engine) : Option Opened :=
  match e.rotating with
  | none => none
  | some number =>
    match Wal.recover number (dir.logs.lookup number) e.wal.lastSeq with
    | .error _ => none
    | .ok r =>
      let frozen := ⟨e.state.active, e.state.activeLogs⟩ :: e.state.frozen
      some (dir.apply (.setLog number r.file),
        { e with
          wal := Wal.Shared.new e.config.sync r
          walNumber := number
          rotating := none
          retired := e.retired ++ [(e.walNumber, e.wal)]
          state := { e.state with active := Memtable.new, activeLogs := [number], frozen := frozen }
          pending := frozen.length })

/-- `Wal::create` fails, at whatever content the file had. -/
def rotateFailStep (dir : Dir) (e : Engine) : Option Opened :=
  if e.rotating.isSome then some (dir, { e with rotating := none }) else none

/-- A thread inside a log that was replaced moves. -/
def oldWalStep (dir : Dir) (e : Engine) (number : ℕ) (thread : Wal.Thread) (event : Wal.Event) :
    Option Opened :=
  if event.internal thread then
    (e.retired.find? fun p => p.1 = number).bind fun p =>
      (p.2.step (thread, event)).map fun wal =>
        (dir.writeLog number wal.file,
          { e with retired := e.retired.map fun q => if q.1 = number then (number, wal) else q })
  else none

/-- `Drop for Wal`: the background thread is joined and what is left of the buffer is written. -/
def dropLogStep (dir : Dir) (e : Engine) (number : ℕ) (fault : Option ℕ) : Option Opened :=
  (e.retired.find? fun p => p.1 = number).bind fun p =>
    if p.2.thread .syncer = .idle then
      some (dir.writeLog number (p.2.writePending fault).1.file,
        { e with retired := e.retired.filter fun q => q.1 ≠ number })
    else none

/-! ### Background tasks -/

/-- `next_task` hands out the oldest frozen memtable. -/
def takeStep (dir : Dir) (e : Engine) : Option Opened :=
  match e.jobs .flush, e.state.frozen.getLast? with
  | .idle, some frozen =>
    if e.rotating = none ∧ 0 < e.pending then
      some (dir, e.setJob .flush (.writing ⟨.flush frozen, [frozen.memtable.run], none, []⟩))
    else none
  | _, _ => none

/-- `compact_once`, up to its plan. -/
def planStep (dir : Dir) (e : Engine) : Option Opened :=
  match e.jobs .compact with
  | .idle =>
    if e.durableFree then
      match Compaction.plan e.snapshot e.config.l0Trigger e.config.levelBytes e.config.fanout with
      | none => some (dir, e)
      | some plan => some (dir, e.setJob .compact (.planned e.snapshot plan))
    else none
  | _ => none

/-- `compact_once` looks its inputs up, and returns if the shape moved under the plan. -/
def findStep (dir : Dir) (e : Engine) : Option Opened :=
  match e.jobs .compact with
  | .planned snapshot plan =>
    if e.rotating = none then
      let inputs := e.state.inputTables plan
      if inputs.length ≠ plan.inputs.length then some (dir, e.setJob .compact .idle)
      else
        let todo := Compaction.writeMerged snapshot plan e.config.targetBytes inputs
        some (dir, e.setJob .compact (.writing ⟨.compact snapshot plan, todo, none, []⟩))
    else none
  | _ => none

/-- An output file takes the next number. -/
def allocStep (dir : Dir) (e : Engine) (slot : Slot) : Option Opened :=
  match e.jobs slot with
  | .writing ⟨target, run :: todo, none, outputs⟩ =>
    let output : Output := ⟨e.nextNumber, run, .allocated⟩
    some (dir, { e.setJob slot (.writing ⟨target, todo, some output, outputs⟩) with
      nextNumber := e.nextNumber + 1 })
  | _ => none

/-- `Writer::create`, `finish` and the rename of an output file, and `SsTable::open`. -/
def outputStep (dir : Dir) (e : Engine) (slot : Slot) (phase : Phase) : Option Opened :=
  match e.jobs slot with
  | .writing ⟨target, todo, some output, outputs⟩ =>
    if output.phase = phase then
      let next := fun phase =>
        e.setJob slot (.writing ⟨target, todo, some { output with phase := phase }, outputs⟩)
      match phase with
      | .allocated =>
        some ({ dir with partials := dir.partials.insert output.number none }, next .created)
      | .created =>
        let table := SsTable.write output.run
        some ({ dir with partials := dir.partials.insert output.number (some table) },
          next .finished)
      | .finished =>
        (dir.partials.lookup output.number).map fun content =>
          ({ dir with partials := dir.partials.erase output.number
                      tables := dir.tables.insert output.number content }, next .renamed)
      | .renamed =>
        match openTable dir output.number with
        | .error _ => none
        | .ok table =>
          let opened : Table := ⟨FileMeta.metaOf output.number target.level table, table⟩
          some (dir, e.setJob slot (.writing ⟨target, todo, none, outputs ++ [opened]⟩))
    else none
  | _ => none

/-- `commit` reads the last sequence number. -/
def readyStep (dir : Dir) (e : Engine) (slot : Slot) : Option Opened :=
  match e.jobs slot with
  | .writing ⟨target, [], none, outputs⟩ =>
    if e.rotating = none then
      some (dir, e.setJob slot (.ready ⟨target, [], none, outputs⟩ e.wal.lastSeq))
    else none
  | _ => none

/-- `commit` takes the durable state and computes the snapshot to store. -/
def lockStep (dir : Dir) (e : Engine) (slot : Slot) : Option Opened :=
  match e.jobs slot with
  | .ready job lastSeq =>
    if e.durableFree then
      let added := job.outputs.map Table.file
      let next := e.snapshot.change added job.target.removed lastSeq e.nextNumber
      some (dir, e.setJob slot (.committing job next .locked))
    else none
  | _ => none

/-- The steps of `Manifest::store`. -/
def manifestStep (dir : Dir) (e : Engine) (slot : Slot) (phase : CommitPhase) : Option Opened :=
  match e.jobs slot with
  | .committing job next phase' =>
    if phase' = phase then
      match phase with
      | .locked =>
        some ({ dir with manifestTemp := some none }, e.setJob slot (.committing job next .created))
      | .created =>
        some ({ dir with manifestTemp := some (some next) },
          e.setJob slot (.committing job next .written))
      | .written =>
        dir.manifestTemp.map fun content =>
          ({ dir with manifestTemp := none, manifest := some content },
            e.setJob slot (.committing job next .renamed))
      | .renamed =>
        -- the end of `commit`: the snapshot is published in memory
        if e.rotating = none then
          some (dir, { e.setJob slot (.unlinking job.target job.target.unlinks) with
            snapshot := next, state := job.target.publish job.outputs e.state })
        else none
    else none
  | _ => none

/-- Removes one of the files the outputs replaced. -/
def unlinkStep (dir : Dir) (e : Engine) (slot : Slot) : Option Opened :=
  match e.jobs slot with
  | .unlinking target (number :: rest) =>
    let next := e.setJob slot (.unlinking target rest)
    match target with
    | .flush _ =>
      if number ∈ dir.logs then some ({ dir with logs := dir.logs.erase number }, next)
      else none
    | .compact _ _ =>
      if number ∈ dir.tables then some ({ dir with tables := dir.tables.erase number }, next)
      else none
  | _ => none

/-- `mark_progress`. -/
def doneStep (dir : Dir) (e : Engine) (slot : Slot) : Option Opened :=
  match e.jobs slot with
  | .unlinking _ [] =>
    if e.rotating = none then
      some (dir, { e.setJob slot .idle with pending := e.state.frozen.length })
    else none
  | _ => none

/-- The task ends with an error, leaving the directory as it is. -/
def failStep (dir : Dir) (e : Engine) (slot : Slot) : Option Opened :=
  match e.jobs slot with
  | .idle => none
  | .planned _ _ => none
  | _ => some (dir, e.setJob slot .idle)

/-- What an open store does. -/
def step (dir : Dir) (e : Engine) : Action → Option Opened
  | .write client key value => enter dir e client (.append key value)
  | .sync client => enter dir e client .sync
  | .wal thread event => walStep dir e thread event
  | .insert client => insertStep dir e client
  | .leave client => leaveStep dir e client
  | .rotate minBytes => rotateStep dir e minBytes
  | .rotateWrite index => rotateWriteStep dir e index
  | .rotateSwap => rotateSwapStep dir e
  | .rotateFail => rotateFailStep dir e
  | .oldWal number thread event => oldWalStep dir e number thread event
  | .dropLog number fault => dropLogStep dir e number fault
  | .take => takeStep dir e
  | .plan => planStep dir e
  | .find => findStep dir e
  | .alloc slot => allocStep dir e slot
  | .create slot => outputStep dir e slot .allocated
  | .finish slot => outputStep dir e slot .created
  | .rename slot => outputStep dir e slot .finished
  | .openOutput slot => outputStep dir e slot .renamed
  | .ready slot => readyStep dir e slot
  | .lock slot => lockStep dir e slot
  | .createManifest slot => manifestStep dir e slot .locked
  | .writeManifest slot => manifestStep dir e slot .created
  | .renameManifest slot => manifestStep dir e slot .written
  | .publish slot => manifestStep dir e slot .renamed
  | .unlink slot => unlinkStep dir e slot
  | .done slot => doneStep dir e slot
  | .fail slot => failStep dir e slot
  | _ => none

/-- What a kill leaves: each open log may have been caught writing part of its buffer. -/
def killed (dir : Dir) (e : Engine) (cut : ℕ → ℕ) : Dir :=
  e.openLogFiles.foldl
    (fun dir p => dir.writeLog p.1 (p.2.file ++ p.2.buf.take (cut p.1))) dir

/-- Whether the engine can be dropped: no call is running and the background tasks are at rest. -/
def atRest (e : Engine) : Bool :=
  e.readers.isEmpty && e.rotating.isNone && e.retired.isEmpty
    && (match e.jobs .flush, e.jobs .compact with
      | .idle, .idle => true
      | _, _ => false)
    && decide (e.wal.thread .syncer = .idle)

/-- What dropping the engine leaves: the log writes what is left of its buffer. -/
def dropped (dir : Dir) (e : Engine) (fault : Option ℕ) : Dir :=
  dir.writeLog e.walNumber (e.wal.writePending fault).1.file

end Engine

/-! ### Whole runs -/

/-- What the specification speaks about. -/
structure History where
  /-- The map the session started with. -/
  start : Bytes → Option Bytes
  /-- The mutations of the session in the order of their numbers, with the log that took them. -/
  session : List (ℕ × Entry)
  /-- The mutations inserted into the memtable. -/
  inserted : List Entry
  /-- The running calls of `Engine::sync`, with the mutations inserted before they began. -/
  syncs : List (ℕ × List Entry)
  /-- The mutations inserted before the start of a call of `Engine::sync` that returned `Ok`. -/
  synced : List Entry
  /-- The logs whose table the manifest has named. -/
  replaced : List ℕ

/-- The history of a session that just started. -/
def History.fresh (start : Bytes → Option Bytes) : History := ⟨start, [], [], [], [], []⟩

/-- Whether the call of `Engine::sync` by `client` returns `Ok` in this step. -/
def Engine.syncReturns (e : Engine) (client : ℕ) : Action → Bool
  | .wal thread .check =>
    match thread, e.wal.thread thread with
    | .client c, .waiting seq none => c = client && seq ≤ e.wal.durable
    | _, _ => false
  | _ => false

/-- What an action of an open store adds to the history. -/
def History.observe (h : History) (action : Action) (e e' : Engine) : History where
  start := h.start
  session := h.session ++ (if e'.walNumber = e.walNumber then
    (e'.wal.appended.drop e.wal.appended.length).map fun entry => (e.walNumber, entry) else [])
  inserted :=
    match action with
    | .insert client =>
      match e.wal.thread (.client client) with
      | .returned entry => h.inserted ++ [entry]
      | _ => h.inserted
    | _ => h.inserted
  syncs :=
    match action with
    | .sync client => (client, h.inserted) :: h.syncs
    | .leave client => h.syncs.filter fun call => call.1 ≠ client
    | _ => h.syncs
  synced := h.synced ++ (h.syncs.filter fun call => e.syncReturns call.1 action).flatMap Prod.snd
  replaced :=
    match action with
    | .renameManifest .flush =>
      match e.jobs .flush with
      | .committing ⟨.flush frozen, _, _, _⟩ _ _ => h.replaced ++ frozen.logs
      | _ => h.replaced
    | _ => h.replaced

/-- A store, open or not, with its history. -/
structure World where
  dir : Dir
  engine : Option Engine
  history : History

namespace World

/-- A store that was never opened, in an empty directory. -/
def initial : World := ⟨Dir.empty, none, History.fresh fun _ => none⟩

/-- One action. -/
def step (w : World) (action : Action) : Option World :=
  match w.engine with
  | some e =>
    match action with
    | .kill cut => some { w with dir := e.killed w.dir cut, engine := none }
    | .close fault =>
      if e.atRest then some { w with dir := e.dropped w.dir fault, engine := none } else none
    | _ =>
      (e.step w.dir action).map fun (dir, e') =>
        ⟨dir, some e', w.history.observe action e e'⟩
  | none =>
    match action with
    | .openStore config =>
      match Engine.openPlan w.dir config with
      | (ops, .ok e) => some ⟨w.dir.applyAll ops, some e, History.fresh e.get⟩
      | (_, .error _) => none
    | .openKilled config count =>
      some { w with dir := w.dir.applyAll ((Engine.openPlan w.dir config).1.take count) }
    | _ => none

end World

end Lsmkv
