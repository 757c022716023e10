import Lsmkv.Engine.Step

/-!
# What a step of the store can do

`Moves dir e action dir' e'` lists the outcomes of the steps of an open store, one constructor for
each, with what has to hold for it; `moves_of_step` reads them off `Engine.step`.  Every invariant
is proved by cases on `Moves`.

Most outcomes touch one side of the store only.  `LogSide` is what the steps of clients, of the log
and of a rotation leave alone, `JobSide` what the steps of the background tasks do.
-/

namespace Lsmkv

/-- The background task that takes an action. -/
def Action.slot : Action → Option Slot
  | .take => some .flush
  | .plan | .find => some .compact
  | .alloc slot | .create slot | .finish slot | .rename slot | .openOutput slot | .ready slot
  | .lock slot | .createManifest slot | .writeManifest slot | .renameManifest slot | .publish slot
  | .unlink slot | .done slot | .fail slot => some slot
  | _ => none

namespace Engine

/-- The outcomes of the steps of an open store. -/
inductive Moves (dir : Dir) (e : Engine) : Action → Dir → Engine → Prop
  | write {client : ℕ} {key : Bytes} {value : Option Bytes} {wal : Wal.Shared}
      (hrotating : e.rotating = none) (hclient : client ∉ e.readers)
      (hwal : e.wal.step (.client client, .append key value) = some wal) :
      Moves dir e (.write client key value) dir
        { e with wal := wal, readers := client :: e.readers }
  | sync {client : ℕ} {wal : Wal.Shared}
      (hrotating : e.rotating = none) (hclient : client ∉ e.readers)
      (hwal : e.wal.step (.client client, .sync) = some wal) :
      Moves dir e (.sync client) dir { e with wal := wal, readers := client :: e.readers }
  | wal {thread : Wal.Thread} {event : Wal.Event} {wal : Wal.Shared}
      (hevent : event.internal thread = true) (hwal : e.wal.step (thread, event) = some wal) :
      Moves dir e (.wal thread event) (dir.writeLog e.walNumber wal.file) { e with wal := wal }
  | insert {client : ℕ} {entry : Entry} {wal : Wal.Shared}
      (hthread : e.wal.thread (.client client) = .returned entry)
      (hwal : e.wal.step (.client client, .resume) = some wal) :
      Moves dir e (.insert client) dir
        { e with wal := wal, state.active := (e.state.active.insert entry).1 }
  | leave {client : ℕ} (hclient : client ∈ e.readers)
      (hthread : e.wal.thread (.client client) = .idle) :
      Moves dir e (.leave client) dir { e with readers := e.readers.erase client }
  | rotateNot {minBytes : ℕ} : Moves dir e (.rotate minBytes) dir e
  | rotate {minBytes : ℕ} (hreaders : e.readers = []) (hrotating : e.rotating = none)
      (hactive : e.state.active.isEmpty = false) :
      Moves dir e (.rotate minBytes) dir
        { e with rotating := some e.nextNumber, nextNumber := e.nextNumber + 1 }
  | rotateWrite {index number : ℕ} {content : Bytes} (hrotating : e.rotating = some number)
      (hcontent : content ∈ Wal.recoverSteps number (dir.logs.lookup number)) :
      Moves dir e (.rotateWrite index) (dir.apply (.setLog number content)) e
  | rotateSwap {number : ℕ} {r : Wal.Recovered} (hrotating : e.rotating = some number)
      (hrecover : Wal.recover number (dir.logs.lookup number) e.wal.lastSeq = .ok r) :
      Moves dir e .rotateSwap (dir.apply (.setLog number r.file))
        { e with
          wal := Wal.Shared.new e.config.sync r
          walNumber := number
          rotating := none
          retired := e.retired ++ [(e.walNumber, e.wal)]
          state.active := Memtable.new
          state.activeLogs := [number]
          state.frozen := ⟨e.state.active, e.state.activeLogs⟩ :: e.state.frozen
          pending := e.state.frozen.length + 1 }
  | rotateFail {number : ℕ} (hrotating : e.rotating = some number) :
      Moves dir e .rotateFail dir { e with rotating := none }
  | oldWal {number : ℕ} {thread : Wal.Thread} {event : Wal.Event} {old wal : Wal.Shared}
      (hevent : event.internal thread = true)
      (hold : e.retired.find? (fun p => p.1 = number) = some (number, old))
      (hwal : old.step (thread, event) = some wal) :
      Moves dir e (.oldWal number thread event) (dir.writeLog number wal.file)
        { e with retired := e.retired.map fun q => if q.1 = number then (number, wal) else q }
  | dropLog {number : ℕ} {fault : Option ℕ} {old : Wal.Shared}
      (hold : e.retired.find? (fun p => p.1 = number) = some (number, old))
      (hthread : old.thread .syncer = .idle) :
      Moves dir e (.dropLog number fault) (dir.writeLog number (old.writePending fault).1.file)
        { e with retired := e.retired.filter fun q => q.1 ≠ number }
  | take {frozen : Frozen} (hpc : e.jobs .flush = .idle) (hrotating : e.rotating = none)
      (hfrozen : e.state.frozen.getLast? = some frozen) :
      Moves dir e .take dir
        (e.setJob .flush (.writing ⟨.flush frozen, [frozen.memtable.run], none, []⟩))
  | planNot : Moves dir e .plan dir e
  | plan {plan : Plan} (hpc : e.jobs .compact = .idle) (hfree : e.durableFree = true)
      (hinputs : plan.inputs = Compaction.inputsFor e.snapshot plan.level) :
      Moves dir e .plan dir (e.setJob .compact (.planned e.snapshot plan))
  | abandon {snapshot : Snapshot} {plan : Plan} (hpc : e.jobs .compact = .planned snapshot plan)
      (hlength : (e.state.inputTables plan).length ≠ plan.inputs.length) :
      Moves dir e .find dir (e.setJob .compact .idle)
  | find {snapshot : Snapshot} {plan : Plan} (hpc : e.jobs .compact = .planned snapshot plan)
      (hrotating : e.rotating = none) :
      Moves dir e .find dir (e.setJob .compact (.writing ⟨.compact snapshot plan,
        Compaction.writeMerged snapshot plan e.config.targetBytes (e.state.inputTables plan),
        none, []⟩))
  | alloc {slot : Slot} {target : Target} {run : Run Bytes Bytes} {todo : List (Run Bytes Bytes)}
      {outputs : List Table} (hpc : e.jobs slot = .writing ⟨target, run :: todo, none, outputs⟩) :
      Moves dir e (.alloc slot) dir
        { e.setJob slot (.writing ⟨target, todo, some ⟨e.nextNumber, run, .allocated⟩, outputs⟩)
          with nextNumber := e.nextNumber + 1 }
  | create {slot : Slot} {target : Target} {run : Run Bytes Bytes} {number : ℕ}
      {todo : List (Run Bytes Bytes)} {outputs : List Table}
      (hpc : e.jobs slot = .writing ⟨target, todo, some ⟨number, run, .allocated⟩, outputs⟩) :
      Moves dir e (.create slot) { dir with partials := dir.partials.insert number none }
        (e.setJob slot (.writing ⟨target, todo, some ⟨number, run, .created⟩, outputs⟩))
  | finish {slot : Slot} {target : Target} {run : Run Bytes Bytes} {number : ℕ}
      {todo : List (Run Bytes Bytes)} {outputs : List Table}
      (hpc : e.jobs slot = .writing ⟨target, todo, some ⟨number, run, .created⟩, outputs⟩) :
      Moves dir e (.finish slot)
        { dir with partials := dir.partials.insert number (some (SsTable.write run)) }
        (e.setJob slot (.writing ⟨target, todo, some ⟨number, run, .finished⟩, outputs⟩))
  | rename {slot : Slot} {target : Target} {run : Run Bytes Bytes} {number : ℕ}
      {todo : List (Run Bytes Bytes)} {outputs : List Table} {content : Option SsTable}
      (hpc : e.jobs slot = .writing ⟨target, todo, some ⟨number, run, .finished⟩, outputs⟩)
      (hcontent : dir.partials.lookup number = some content) :
      Moves dir e (.rename slot)
        { dir with partials := dir.partials.erase number, tables :=
          dir.tables.insert number content }
        (e.setJob slot (.writing ⟨target, todo, some ⟨number, run, .renamed⟩, outputs⟩))
  | openOutput {slot : Slot} {target : Target} {run : Run Bytes Bytes} {number : ℕ}
      {todo : List (Run Bytes Bytes)} {outputs : List Table} {table : SsTable}
      (hpc : e.jobs slot = .writing ⟨target, todo, some ⟨number, run, .renamed⟩, outputs⟩)
      (htable : dir.tables.lookup number = some (some table)) :
      Moves dir e (.openOutput slot) dir (e.setJob slot (.writing ⟨target, todo, none,
        outputs ++ [⟨FileMeta.metaOf number target.level table, table⟩]⟩))
  | ready {slot : Slot} {target : Target} {outputs : List Table}
      (hpc : e.jobs slot = .writing ⟨target, [], none, outputs⟩) (hrotating : e.rotating = none) :
      Moves dir e (.ready slot) dir
        (e.setJob slot (.ready ⟨target, [], none, outputs⟩ e.wal.lastSeq))
  | lock {slot : Slot} {job : Job} {lastSeq : ℕ} (hpc : e.jobs slot = .ready job lastSeq)
      (hfree : e.durableFree = true) :
      Moves dir e (.lock slot) dir (e.setJob slot (.committing job
        (e.snapshot.change (job.outputs.map Table.file) job.target.removed lastSeq e.nextNumber)
        .locked))
  | createManifest {slot : Slot} {job : Job} {next : Snapshot}
      (hpc : e.jobs slot = .committing job next .locked) :
      Moves dir e (.createManifest slot) { dir with manifestTemp := some none }
        (e.setJob slot (.committing job next .created))
  | writeManifest {slot : Slot} {job : Job} {next : Snapshot}
      (hpc : e.jobs slot = .committing job next .created) :
      Moves dir e (.writeManifest slot) { dir with manifestTemp := some (some next) }
        (e.setJob slot (.committing job next .written))
  | renameManifest {slot : Slot} {job : Job} {next : Snapshot} {content : Option Snapshot}
      (hpc : e.jobs slot = .committing job next .written)
      (hcontent : dir.manifestTemp = some content) :
      Moves dir e (.renameManifest slot)
        { dir with manifestTemp := none, manifest := some content }
        (e.setJob slot (.committing job next .renamed))
  | publish {slot : Slot} {job : Job} {next : Snapshot}
      (hpc : e.jobs slot = .committing job next .renamed) (hrotating : e.rotating = none) :
      Moves dir e (.publish slot) dir { e.setJob slot (.unlinking job.target job.target.unlinks)
        with snapshot := next, state := job.target.publish job.outputs e.state }
  | unlinkLog {slot : Slot} {frozen : Frozen} {number : ℕ} {rest : List ℕ}
      (hpc : e.jobs slot = .unlinking (.flush frozen) (number :: rest))
      (hlog : number ∈ dir.logs) :
      Moves dir e (.unlink slot) { dir with logs := dir.logs.erase number }
        (e.setJob slot (.unlinking (.flush frozen) rest))
  | unlinkTable {slot : Slot} {snapshot : Snapshot} {plan : Plan} {number : ℕ} {rest : List ℕ}
      (hpc : e.jobs slot = .unlinking (.compact snapshot plan) (number :: rest)) :
      Moves dir e (.unlink slot) { dir with tables := dir.tables.erase number }
        (e.setJob slot (.unlinking (.compact snapshot plan) rest))
  | done {slot : Slot} {target : Target} (hpc : e.jobs slot = .unlinking target [])
      (hrotating : e.rotating = none) :
      Moves dir e (.done slot) dir
        { e.setJob slot .idle with pending := e.state.frozen.length }
  | fail {slot : Slot} : Moves dir e (.fail slot) dir (e.setJob slot .idle)

section

variable {dir dir' : Dir} {e e' : Engine}

theorem moves_of_enter {client : ℕ} {event : Wal.Event}
    (h : enter dir e client event = some (dir', e')) : e.rotating = none ∧ client ∉ e.readers
      ∧ ∃ wal, e.wal.step (.client client, event) = some wal ∧ dir' = dir
        ∧ e' = { e with wal := wal, readers := client :: e.readers } := by
  unfold enter at h
  split_ifs at h with hguard
  rw [Option.map_eq_some_iff] at h
  obtain ⟨wal, hwal, heq⟩ := h
  obtain ⟨rfl, rfl⟩ := Prod.mk.inj heq
  exact ⟨hguard.1, hguard.2, wal, hwal, rfl, rfl⟩

theorem moves_of_outputStep {slot : Slot} {phase : Phase}
    (h : outputStep dir e slot phase = some (dir', e')) :
    match phase with
    | .allocated => Moves dir e (.create slot) dir' e'
    | .created => Moves dir e (.finish slot) dir' e'
    | .finished => Moves dir e (.rename slot) dir' e'
    | .renamed => Moves dir e (.openOutput slot) dir' e' := by
  unfold outputStep at h
  split at h
  · rename_i target todo output outputs hpc
    obtain ⟨number, run, phase'⟩ := output
    split_ifs at h with hphase
    obtain rfl : phase' = phase := hphase
    cases phase' with
    | allocated =>
      cases h
      exact .create hpc
    | created =>
      cases h
      exact .finish hpc
    | finished =>
      obtain ⟨content, hcontent, heq⟩ := Option.map_eq_some_iff.mp h
      obtain ⟨rfl, rfl⟩ := Prod.mk.inj heq
      exact .rename hpc hcontent
    | renamed =>
      dsimp only at h
      unfold openTable at h
      split at h
      · cases h
      · rename_i table htable
        cases h
        refine .openOutput hpc ?_
        split at htable <;> cases htable
        assumption
  · cases h

theorem moves_of_manifestStep {slot : Slot} {phase : CommitPhase}
    (h : manifestStep dir e slot phase = some (dir', e')) :
    match phase with
    | .locked => Moves dir e (.createManifest slot) dir' e'
    | .created => Moves dir e (.writeManifest slot) dir' e'
    | .written => Moves dir e (.renameManifest slot) dir' e'
    | .renamed => Moves dir e (.publish slot) dir' e' := by
  unfold manifestStep at h
  split at h
  · rename_i job next phase' hpc
    by_cases hphase : phase' = phase
    swap
    · rw [if_neg hphase] at h
      cases h
    rw [if_pos hphase] at h
    obtain rfl := hphase
    cases phase' with
    | locked =>
      cases h
      exact .createManifest hpc
    | created =>
      cases h
      exact .writeManifest hpc
    | written =>
      obtain ⟨content, hcontent, heq⟩ := Option.map_eq_some_iff.mp h
      obtain ⟨rfl, rfl⟩ := Prod.mk.inj heq
      exact .renameManifest hpc hcontent
    | renamed =>
      dsimp only at h
      split_ifs at h with hrotating
      cases h
      exact .publish hpc hrotating
  · cases h

/-- **Every step is one of the moves.** -/
theorem moves_of_step {action : Action} (h : e.step dir action = some (dir', e')) :
    Moves dir e action dir' e' := by
  cases action with
  | write client key value =>
    obtain ⟨hrotating, hclient, wal, hwal, rfl, rfl⟩ := moves_of_enter h
    exact .write hrotating hclient hwal
  | sync client =>
    obtain ⟨hrotating, hclient, wal, hwal, rfl, rfl⟩ := moves_of_enter h
    exact .sync hrotating hclient hwal
  | wal thread event =>
    simp only [step, walStep] at h
    split_ifs at h with hevent
    obtain ⟨wal, hwal, heq⟩ := Option.map_eq_some_iff.mp h
    obtain ⟨rfl, rfl⟩ := Prod.mk.inj heq
    exact .wal hevent hwal
  | insert client =>
    simp only [step, insertStep] at h
    split at h
    · rename_i entry hthread
      obtain ⟨wal, hwal, heq⟩ := Option.map_eq_some_iff.mp h
      obtain ⟨rfl, rfl⟩ := Prod.mk.inj heq
      exact .insert hthread hwal
    · cases h
  | leave client =>
    simp only [step, leaveStep] at h
    split_ifs at h with hguard
    cases h
    exact .leave hguard.1 hguard.2
  | rotate minBytes =>
    simp only [step, rotateStep] at h
    split_ifs at h with hguard hsmall
    · cases h
      exact .rotateNot
    · cases h
      rw [not_or, Bool.not_eq_true] at hsmall
      exact .rotate hguard.1 hguard.2 hsmall.1
  | rotateWrite index =>
    simp only [step, rotateWriteStep] at h
    split at h
    · cases h
    · rename_i number hrotating
      obtain ⟨content, hcontent, heq⟩ := Option.map_eq_some_iff.mp h
      obtain ⟨rfl, rfl⟩ := Prod.mk.inj heq
      exact .rotateWrite hrotating (List.mem_of_getElem? hcontent)
  | rotateSwap =>
    simp only [step, rotateSwapStep] at h
    split at h
    · cases h
    · rename_i number hrotating
      split at h
      · cases h
      · rename_i r hrecover
        cases h
        exact .rotateSwap hrotating hrecover
  | rotateFail =>
    simp only [step, rotateFailStep] at h
    split_ifs at h with hrotating
    obtain ⟨number, hnumber⟩ := Option.isSome_iff_exists.mp hrotating
    cases h
    exact .rotateFail hnumber
  | oldWal number thread event =>
    simp only [step, oldWalStep] at h
    split_ifs at h with hevent
    obtain ⟨⟨number', old⟩, hold, h⟩ := Option.bind_eq_some_iff.mp h
    obtain rfl : number' = number := by simpa using List.find?_some hold
    obtain ⟨wal, hwal, heq⟩ := Option.map_eq_some_iff.mp h
    obtain ⟨rfl, rfl⟩ := Prod.mk.inj heq
    exact .oldWal hevent hold hwal
  | dropLog number fault =>
    simp only [step, dropLogStep] at h
    obtain ⟨⟨number', old⟩, hold, h⟩ := Option.bind_eq_some_iff.mp h
    obtain rfl : number' = number := by simpa using List.find?_some hold
    split_ifs at h with hthread
    cases h
    exact .dropLog hold hthread
  | take =>
    simp only [step, takeStep] at h
    split at h
    · rename_i frozen hpc hfrozen
      split_ifs at h with hguard
      cases h
      exact .take hpc hguard.1 hfrozen
    · cases h
  | plan =>
    simp only [step, planStep] at h
    split at h
    · rename_i hpc
      split_ifs at h with hfree
      split at h
      · cases h
        exact .planNot
      · rename_i plan hplan
        cases h
        exact .plan hpc hfree (Compaction.plan_inputs hplan)
    · cases h
  | find =>
    simp only [step, findStep] at h
    split at h
    · rename_i snapshot plan hpc
      split_ifs at h with hrotating hlength
      · cases h
        exact .abandon hpc hlength
      · cases h
        exact .find hpc hrotating
    · cases h
  | alloc slot =>
    simp only [step, allocStep] at h
    split at h
    · rename_i target run todo outputs hpc
      cases h
      exact .alloc hpc
    · cases h
  | create slot => exact moves_of_outputStep h
  | finish slot => exact moves_of_outputStep h
  | rename slot => exact moves_of_outputStep h
  | openOutput slot => exact moves_of_outputStep h
  | ready slot =>
    simp only [step, readyStep] at h
    split at h
    · rename_i target outputs hpc
      split_ifs at h with hrotating
      cases h
      exact .ready hpc hrotating
    · cases h
  | lock slot =>
    simp only [step, lockStep] at h
    split at h
    · rename_i job lastSeq hpc
      split_ifs at h with hfree
      cases h
      exact .lock hpc hfree
    · cases h
  | createManifest slot => exact moves_of_manifestStep h
  | writeManifest slot => exact moves_of_manifestStep h
  | renameManifest slot => exact moves_of_manifestStep h
  | publish slot => exact moves_of_manifestStep h
  | unlink slot =>
    simp only [step, unlinkStep] at h
    split at h
    · rename_i target number rest hpc
      split at h
      · split_ifs at h with hlog
        cases h
        exact .unlinkLog hpc hlog
      · split_ifs at h
        cases h
        exact .unlinkTable hpc
    · cases h
  | done slot =>
    simp only [step, doneStep] at h
    split at h
    · rename_i target hpc
      split_ifs at h with hrotating
      cases h
      exact .done hpc hrotating
    · cases h
  | fail slot =>
    simp only [step, failStep] at h
    split at h
    · cases h
    · cases h
    · cases h
      exact .fail
  | kill cut => cases h
  | close fault => cases h
  | openStore config => cases h
  | openKilled config count => cases h

/-! ### The two sides of the store -/

/-- What clients, the log and a rotation leave alone. -/
structure LogSide (dir dir' : Dir) (e e' : Engine) : Prop where
  tables : dir'.tables = dir.tables
  partials : dir'.partials = dir.partials
  manifest : dir'.manifest = dir.manifest
  manifestTemp : dir'.manifestTemp = dir.manifestTemp
  config : e'.config = e.config
  snapshot : e'.snapshot = e.snapshot
  levels : e'.state.levels = e.state.levels
  jobs : e'.jobs = e.jobs
  nextNumber : e.nextNumber ≤ e'.nextNumber
  frozen : e.state.frozen <:+ e'.state.frozen

/-- What a background task leaves alone. -/
structure JobSide (slot : Slot) (e e' : Engine) : Prop where
  config : e'.config = e.config
  wal : e'.wal = e.wal
  walNumber : e'.walNumber = e.walNumber
  readers : e'.readers = e.readers
  rotating : e'.rotating = e.rotating
  retired : e'.retired = e.retired
  active : e'.state.active = e.state.active
  activeLogs : e'.state.activeLogs = e.state.activeLogs
  nextNumber : e.nextNumber ≤ e'.nextNumber
  jobs : ∀ slot', slot' ≠ slot → e'.jobs slot' = e.jobs slot'

@[simp]
theorem setJob_self (e : Engine) (slot : Slot) (pc : JobPc) : (e.setJob slot pc).jobs slot = pc :=
  Function.update_self _ _ _

theorem setJob_of_ne (e : Engine) {slot slot' : Slot} (pc : JobPc) (h : slot' ≠ slot) :
    (e.setJob slot pc).jobs slot' = e.jobs slot' := Function.update_of_ne h _ _

/-- What a task has in common with its next point, every task of the store keeps. -/
theorem setJob_congr {α : Type} (e : Engine) {slot : Slot} {pc : JobPc} (f : JobPc → α)
    (h : f pc = f (e.jobs slot)) (slot' : Slot) :
    f ((e.setJob slot pc).jobs slot') = f (e.jobs slot') := by
  by_cases hslot : slot' = slot
  · rw [hslot, setJob_self, h]
  · rw [setJob_of_ne e pc hslot]

theorem jobSide_setJob (e : Engine) (slot : Slot) (pc : JobPc) :
    JobSide slot e (e.setJob slot pc) :=
  ⟨rfl, rfl, rfl, rfl, rfl, rfl, rfl, rfl, le_rfl, fun _ => e.setJob_of_ne pc⟩

/-- A rewrite of a log touches nothing else. -/
theorem writeLog_eq (dir : Dir) (number : ℕ) (content : Bytes) :
    dir.writeLog number content = { dir with logs := (dir.writeLog number content).logs } := by
  unfold Dir.writeLog
  split_ifs <;> rfl

theorem Moves.logSide {action : Action} (h : Moves dir e action dir' e')
    (hslot : action.slot = none) : LogSide dir dir' e e' := by
  have hlog : ∀ (number : ℕ) (content : Bytes) (e' : Engine), e'.config = e.config →
      e'.snapshot = e.snapshot → e'.state = e.state → e'.jobs = e.jobs →
      e'.nextNumber = e.nextNumber → LogSide dir (dir.writeLog number content) e e' := by
    intro number content e' hconfig hsnapshot hstate hjobs hnext
    rw [writeLog_eq]
    exact ⟨rfl, rfl, rfl, rfl, hconfig, hsnapshot, by rw [hstate], hjobs, hnext.ge,
      by rw [hstate]⟩
  cases h with
  | write | sync | insert | leave | rotateNot | rotateFail =>
    exact ⟨rfl, rfl, rfl, rfl, rfl, rfl, rfl, rfl, le_rfl, List.suffix_rfl⟩
  | rotate => exact ⟨rfl, rfl, rfl, rfl, rfl, rfl, rfl, rfl, Nat.le_succ _, List.suffix_rfl⟩
  | rotateWrite => exact ⟨rfl, rfl, rfl, rfl, rfl, rfl, rfl, rfl, le_rfl, List.suffix_rfl⟩
  | rotateSwap => exact ⟨rfl, rfl, rfl, rfl, rfl, rfl, rfl, rfl, le_rfl, List.suffix_cons _ _⟩
  | wal | oldWal | dropLog => exact hlog _ _ _ rfl rfl rfl rfl rfl
  | _ => cases hslot

theorem Moves.jobSide {action : Action} (h : Moves dir e action dir' e') {slot : Slot}
    (hslot : action.slot = some slot) : JobSide slot e e' := by
  cases h with
  | write | sync | wal | insert | leave | rotateNot | rotate | rotateWrite | rotateSwap
  | rotateFail | oldWal | dropLog => cases hslot
  | planNot => exact ⟨rfl, rfl, rfl, rfl, rfl, rfl, rfl, rfl, le_rfl, fun _ _ => rfl⟩
  | alloc =>
    cases hslot
    exact ⟨rfl, rfl, rfl, rfl, rfl, rfl, rfl, rfl, Nat.le_succ _, fun _ => setJob_of_ne _ _⟩
  | @publish slot' job next hpc hrotating =>
    cases hslot
    refine ⟨rfl, rfl, rfl, rfl, rfl, rfl, ?_, ?_, le_rfl, fun _ => setJob_of_ne _ _⟩
    · cases job.target <;> rfl
    · cases job.target <;> rfl
  | done =>
    cases hslot
    exact ⟨rfl, rfl, rfl, rfl, rfl, rfl, rfl, rfl, le_rfl, fun _ => setJob_of_ne _ _⟩
  | _ =>
    cases hslot
    exact jobSide_setJob _ _ _

/-- A store that can be dropped runs nothing. -/
theorem atRest_iff : e.atRest = true ↔ e.readers = [] ∧ e.rotating = none ∧ e.retired = []
    ∧ (∀ slot, e.jobs slot = .idle) ∧ e.wal.thread .syncer = .idle := by
  unfold atRest
  simp only [Bool.and_eq_true, List.isEmpty_iff, Option.isNone_iff_eq_none, decide_eq_true_iff,
    and_assoc]
  refine and_congr_right fun _ => and_congr_right fun _ => and_congr_right fun _ =>
    and_congr_left fun _ => ⟨fun h slot => ?_, fun h => by rw [h .flush, h .compact]⟩
  split at h
  · cases slot <;> assumption
  · cases h

end

end Engine

/-! ### Whole stores -/

namespace World

/-- What an action can do to a store. -/
inductive Moves (w : World) : Action → World → Prop
  | engine {e e' : Engine} {action : Action} {dir' : Dir} (hengine : w.engine = some e)
      (hmoves : Engine.Moves w.dir e action dir' e') :
      Moves w action ⟨dir', some e', w.history.observe action e e'⟩
  | kill {e : Engine} {cut : ℕ → ℕ} (hengine : w.engine = some e) :
      Moves w (.kill cut) { w with dir := e.killed w.dir cut, engine := none }
  | close {e : Engine} {fault : Option ℕ} (hengine : w.engine = some e) (hrest : e.atRest = true) :
      Moves w (.close fault) { w with dir := e.dropped w.dir fault, engine := none }
  | openStore {config : Config} {ops : List FsOp} {e : Engine} (hengine : w.engine = none)
      (hopen : Engine.openPlan w.dir config = (ops, .ok e)) :
      Moves w (.openStore config) ⟨w.dir.applyAll ops, some e, History.fresh e.get⟩
  | openKilled {config : Config} {count : ℕ} (hengine : w.engine = none) :
      Moves w (.openKilled config count)
        ⟨w.dir.applyAll ((Engine.openPlan w.dir config).1.take count), none, w.history⟩

theorem moves_of_step {w w' : World} {action : Action} (h : w.step action = some w') :
    w.Moves action w' := by
  unfold step at h
  cases hengine : w.engine with
  | some e =>
    rw [hengine] at h
    dsimp only at h
    split at h
    · cases h
      exact .kill hengine
    · split_ifs at h with hrest
      cases h
      exact .close hengine hrest
    · obtain ⟨⟨dir', e'⟩, hstep, rfl⟩ := Option.map_eq_some_iff.mp h
      exact .engine hengine (Engine.moves_of_step hstep)
  | none =>
    rw [hengine] at h
    dsimp only at h
    split at h
    · split at h
      · rename_i ops e hopen
        cases h
        exact .openStore hengine hopen
      · cases h
    · cases h
      exact .openKilled hengine
    · cases h

end World

end Lsmkv
