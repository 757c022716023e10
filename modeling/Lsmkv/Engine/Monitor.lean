import Lsmkv.Engine.Progress
import Lsmkv.Engine.Visible

/-!
# The flush thread and whoever waits for it

`rotate`, `mark_progress`, `set_background_error` and the drop of the engine notify the condition
variable `progress`; the flush thread in `next_task` and the callers of `wait_for_flush` sleep on
it.  A notification wakes whoever sleeps and nobody else, so it is lost on a thread that is about
to.  The queue lock keeps this from happening, except for `set_background_error`, which does not
take it.

A `Monitor` is an open store with what these functions read and write on top of it: the other fields
of the queue, the error of the last task that failed, and where the flush thread and every caller
stand.  Its steps are stretches of the code between two points where another thread can come in.
`Moves` lists their outcomes, and each of them is a step of the store or leaves it alone
(`Moves.below`).
-/

namespace Lsmkv

/-- Where the flush thread stands. -/
inductive FlusherPc where
  /-- At the top of the loop of `next_task`. -/
  | looking (retry : Bool)
  /-- In the `wait_timeout` after a failure. -/
  | dozing
  /-- In `wait`, until it is notified. -/
  | asleep (retry : Bool)
  | flushing
  /-- In `compact_all`. -/
  | compacting
  /-- The task returned an error. -/
  | failed (err : Error)
  /-- Before the `notify_all` of `mark_progress`, at the end of a flush. -/
  | flushed
  /-- Before the `notify_all` of `mark_progress`, at the end of a compaction. -/
  | merged
  /-- Before the `notify_all` of `set_background_error`. -/
  | reported
  | exited
  deriving DecidableEq

/-- Where a caller stands. -/
inductive CallerPc where
  | outside
  /-- In `rotate`, holding its locks.  `flush` says whether the caller is `Engine::flush`. -/
  | rotating (flush : Bool)
  /-- Before the `notify_all` of `rotate`. -/
  | rotated (flush : Bool)
  /-- At the top of the loop of `wait_for_flush`. -/
  | entering
  /-- Holding the queue, having found no error. -/
  | checking
  /-- In `wait`, until it is notified. -/
  | asleep
  /-- In the `compact_all` of `Engine::compact`. -/
  | compacting
  /-- Before the `notify_all` of `mark_progress`, at the end of a compaction. -/
  | merged
  deriving DecidableEq

/-- How far the drop of the engine has come. -/
inductive DropPc where
  | running
  /-- Before its `notify_all`. -/
  | stopping
  | joining
  | joined
  deriving DecidableEq

/-- The threads that notify `progress`. -/
inductive Actor where
  | flusher
  | caller (id : ℕ)
  | dropper
  deriving DecidableEq

/-- An open store, the rest of its flush queue, and its threads. -/
structure Monitor where
  dir : Dir
  engine : Engine
  history : History
  shapeChanged : Bool
  shutdown : Bool
  backgroundError : Option Error
  flusher : FlusherPc
  callers : ℕ → CallerPc
  /-- The callers that are not outside. -/
  inside : List ℕ
  /-- The caller that holds the queue between two of its steps. -/
  holder : Option ℕ
  /-- Who holds `compacting`. -/
  compactor : Option Actor
  drop : DropPc

/-- What can happen next. -/
inductive MonitorAction where
  /-- A step of a call or a log that has nothing to do with the queue. -/
  | store (action : Action)
  /-- A `set` or `delete` returns the error of a task. -/
  | refuse
  | rotate (caller minBytes : ℕ) (flush : Bool)
  | rotateSwap (caller : ℕ)
  | rotateFail (caller : ℕ)
  /-- A caller enters `wait_for_flush`. -/
  | enter (caller : ℕ)
  /-- A caller takes the queue, and the error if there is one. -/
  | takeError (caller : ℕ)
  /-- A caller that found no error returns or goes to sleep. -/
  | check (caller : ℕ)
  /-- `next_task`, up to its first `wait_timeout`, `wait` or `return`. -/
  | nextTask
  /-- `next_task`, from the end of its `wait_timeout`. -/
  | timeout
  /-- A caller enters `Engine::compact`. -/
  | compact (caller : ℕ)
  /-- `compact_once` takes `compacting` and plans. -/
  | plan (actor : Actor)
  | find (actor : Actor)
  /-- A step of a flush or a compaction. -/
  | task (actor : Actor) (action : Action)
  /-- The queue's part of the `mark_progress` of a flush. -/
  | markFlushed
  /-- The queue's part of the `mark_progress` of a compaction. -/
  | markMerged (actor : Actor)
  | failFlush (err : Error)
  | failCompact (actor : Actor) (err : Error)
  /-- `set_background_error`, up to its `notify_all`. -/
  | setBackgroundError
  | notifyAll (actor : Actor)
  /-- A sleeper wakes without having been notified. -/
  | wake (actor : Actor)
  /-- The drop of the engine, up to its `notify_all`. -/
  | shutdown
  | join

/-- The steps of calls and logs outside `rotate`. -/
def Action.isCall : Action → Bool
  | .write _ _ _ | .sync _ | .wal _ _ | .insert _ | .leave _ | .rotateWrite _ | .oldWal _ _ _
  | .dropLog _ _ => true
  | _ => false

/-- The steps of a task between its start and its `mark_progress`. -/
def Action.isTask : Action → Bool
  | .alloc _ | .create _ | .finish _ | .rename _ | .openOutput _ | .ready _ | .lock _
  | .createManifest _ | .writeManifest _ | .renameManifest _ | .publish _ | .unlink _ => true
  | _ => false

def JobPc.isIdle : JobPc → Bool
  | .idle => true
  | _ => false

/-- `notify_all` wakes the flush thread. -/
def FlusherPc.wake : FlusherPc → FlusherPc
  | .asleep retry => .looking retry
  | pc => pc

/-- `notify_all` wakes a caller. -/
def CallerPc.wake : CallerPc → CallerPc
  | .asleep => .entering
  | pc => pc

namespace Monitor

/-- Whether the queue can be taken. -/
def queueFree (m : Monitor) : Bool := m.engine.rotating.isNone && m.holder.isNone

/-- A step of the store. -/
def advance (m : Monitor) (action : Action) (dir : Dir) (e : Engine) : Monitor :=
  { m with dir := dir, engine := e, history := m.history.observe action m.engine e }

/-- A step of the store that leaves a monitor to go on with. -/
def lift (m : Monitor) (action : Action) (next : Monitor → Monitor) : Option Monitor :=
  (m.engine.step m.dir action).map fun p => next (m.advance action p.1 p.2)

/-- Moves a caller. -/
def setCaller (m : Monitor) (caller : ℕ) (pc : CallerPc) : Monitor :=
  { m with
    callers := Function.update m.callers caller pc
    inside := if pc = .outside then m.inside.erase caller else caller :: m.inside.erase caller }

/-- Where a caller stands once it has its locks in `rotate`: there may be nothing to freeze. -/
def begun (e : Engine) (flush : Bool) : CallerPc :=
  if e.rotating.isSome then .rotating flush else if flush then .entering else .outside

/-- Whether a thread is in `compact_all` and outside `compact_once`. -/
def inCompactAll (m : Monitor) : Actor → Bool
  | .flusher => m.flusher = .compacting
  | .caller id => m.callers id = .compacting
  | .dropper => false

/-- Moves a thread in `compact_all`. -/
def moveActor (m : Monitor) (flusher : FlusherPc) (caller : CallerPc) : Actor → Monitor
  | .flusher => { m with flusher := flusher }
  | .caller id => m.setCaller id caller
  | .dropper => m

/-- `compact_all` returns `Ok`. -/
def compacted (m : Monitor) : Actor → Monitor := m.moveActor (.looking false) .outside

/-- `compact_all` returns an error. -/
def compactFailed (m : Monitor) (err : Error) : Actor → Monitor :=
  m.moveActor (.failed err) .outside

/-- `compact_once` comes to its `notify_all`. -/
def merged (m : Monitor) : Actor → Monitor := m.moveActor .merged .merged

/-- `compact_once` goes on with its plan, or returns without having run one. -/
def planned (m : Monitor) (actor : Actor) : Monitor :=
  if (m.engine.jobs .compact).isIdle then { m.compacted actor with compactor := none }
  else { m with compactor := some actor }

/-- Whether a thread is at work on a task. -/
def works (m : Monitor) (actor : Actor) : Slot → Bool
  | .flush => actor = .flusher && m.flusher = .flushing
  | .compact => m.compactor = some actor && m.inCompactAll actor

/-- Whether a thread is about to notify. -/
def notifies (m : Monitor) : Actor → Bool
  | .flusher => m.flusher = .flushed || m.flusher = .merged || m.flusher = .reported
  | .caller id =>
    match m.callers id with
    | .rotated _ | .merged => true
    | _ => false
  | .dropper => m.drop = .stopping

/-- Where a thread goes on once it has notified. -/
def notified (m : Monitor) : Actor → Monitor
  | .flusher =>
    match m.flusher with
    | .flushed => { m with flusher := .looking false }
    | .merged => { m with flusher := .compacting, compactor := none }
    | _ => { m with flusher := .looking true }
  | .caller id =>
    match m.callers id with
    | .rotated true => m.setCaller id .entering
    | .rotated false => m.setCaller id .outside
    | _ => { m.setCaller id .compacting with compactor := none }
  | .dropper => { m with drop := .joining }

/-- Wakes whoever sleeps. -/
def wakeAll (m : Monitor) : Monitor :=
  { m with flusher := m.flusher.wake, callers := fun id => (m.callers id).wake }

/-- The end of the loop of `next_task`: a flush, or else a compaction, or else `wait`. -/
def pick (m : Monitor) (retry : Bool) : Monitor :=
  match m.engine.step m.dir .take with
  | some (dir, e) => { m.advance .take dir e with flusher := .flushing }
  | none =>
    if m.shapeChanged then { m with shapeChanged := false, flusher := .compacting }
    else { m with flusher := .asleep retry }

/-- One action. -/
def step (m : Monitor) : MonitorAction → Option Monitor
  | .store action =>
    match action with
    | .write _ _ _ =>
      if m.drop = .running ∧ m.backgroundError = none then m.lift action id else none
    | .sync _ => if m.drop = .running then m.lift action id else none
    | _ => if action.isCall then m.lift action id else none
  | .refuse =>
    if m.drop = .running ∧ m.backgroundError.isSome then some { m with backgroundError := none }
    else none
  | .rotate caller minBytes flush =>
    if m.drop = .running ∧ m.callers caller = .outside ∧ m.queueFree then
      m.lift (.rotate minBytes) fun m => m.setCaller caller (begun m.engine flush)
    else none
  | .rotateSwap caller =>
    match m.callers caller with
    | .rotating flush => m.lift .rotateSwap fun m => m.setCaller caller (.rotated flush)
    | _ => none
  | .rotateFail caller =>
    match m.callers caller with
    | .rotating _ => m.lift .rotateFail fun m => m.setCaller caller .outside
    | _ => none
  | .enter caller =>
    if m.drop = .running ∧ m.callers caller = .outside then some (m.setCaller caller .entering)
    else none
  | .takeError caller =>
    if m.callers caller = .entering ∧ m.queueFree then
      match m.backgroundError with
      | some _ => some { m.setCaller caller .outside with backgroundError := none }
      | none => some { m.setCaller caller .checking with holder := some caller }
    else none
  | .check caller =>
    if m.callers caller = .checking then
      some { m.setCaller caller (if m.engine.pending = 0 then .outside else .asleep) with
        holder := none }
    else none
  | .nextTask =>
    match m.flusher with
    | .looking retry =>
      if m.queueFree then
        if m.shutdown then some { m with flusher := .exited }
        else if retry then some { m with flusher := .dozing }
        else some (m.pick retry)
      else none
    | _ => none
  | .timeout =>
    if m.flusher = .dozing ∧ m.queueFree then
      if m.shutdown then some { m with flusher := .exited } else some (m.pick true)
    else none
  | .compact caller =>
    if m.drop = .running ∧ m.callers caller = .outside then some (m.setCaller caller .compacting)
    else none
  | .plan actor =>
    if m.inCompactAll actor ∧ m.compactor = none then m.lift .plan fun m => m.planned actor
    else none
  | .find actor =>
    if m.works actor .compact then m.lift .find fun m => m.planned actor else none
  | .task actor action =>
    match action.slot with
    | some slot => if action.isTask ∧ m.works actor slot then m.lift action id else none
    | none => none
  | .markFlushed =>
    if m.works .flusher .flush ∧ m.queueFree then
      m.lift (.done .flush) fun m => { m with flusher := .flushed, shapeChanged := true }
    else none
  | .markMerged actor =>
    if m.works actor .compact ∧ m.queueFree then
      m.lift (.done .compact) fun m => { m.merged actor with shapeChanged := true }
    else none
  | .failFlush err =>
    if m.works .flusher .flush then
      m.lift (.fail .flush) fun m => { m with flusher := .failed err }
    else none
  | .failCompact actor err =>
    if m.works actor .compact then
      m.lift (.fail .compact) fun m => { m.compactFailed err actor with compactor := none }
    else none
  | .setBackgroundError =>
    match m.flusher with
    | .failed err =>
      some { m with backgroundError := m.backgroundError.or (some err), flusher := .reported }
    | _ => none
  | .notifyAll actor => if m.notifies actor then some (m.notified actor).wakeAll else none
  | .wake actor =>
    match actor with
    | .flusher =>
      match m.flusher with
      | .asleep retry => some { m with flusher := .looking retry }
      | _ => none
    | .caller id => if m.callers id = .asleep then some (m.setCaller id .entering) else none
    | .dropper => none
  | .shutdown =>
    if m.drop = .running ∧ m.inside = [] ∧ m.engine.readers = [] ∧ m.queueFree then
      some { m with shutdown := true, drop := .stopping }
    else none
  | .join =>
    if m.drop = .joining ∧ m.flusher = .exited then some { m with drop := .joined } else none

/-- The threads of a store that was just opened. -/
def opened (dir : Dir) (e : Engine) : Monitor where
  dir := dir
  engine := e
  history := History.fresh e.get
  shapeChanged := false
  shutdown := false
  backgroundError := none
  flusher := .looking false
  callers := fun _ => .outside
  inside := []
  holder := none
  compactor := none
  drop := .running

/-! ### What a step can do -/

/-- Whether the flush thread takes the queue in this action. -/
def looks (m : Monitor) : MonitorAction → Bool
  | .nextTask => m.flusher = .looking true || m.flusher = .looking false
  | .timeout => m.flusher = .dozing
  | _ => false

/-- The outcomes of the steps. -/
inductive Moves (m : Monitor) : MonitorAction → Monitor → Prop
  | store {action : Action} {dir : Dir} {e : Engine} (hcall : action.isCall = true)
      (hm : Engine.Moves m.dir m.engine action dir e) :
      Moves m (.store action) (m.advance action dir e)
  | refuse : Moves m .refuse { m with backgroundError := none }
  | rotate {caller minBytes : ℕ} {flush : Bool} {dir : Dir} {e : Engine}
      (hdrop : m.drop = .running) (hcaller : m.callers caller = .outside)
      (hm : Engine.Moves m.dir m.engine (.rotate minBytes) dir e) :
      Moves m (.rotate caller minBytes flush)
        ((m.advance (.rotate minBytes) dir e).setCaller caller (begun e flush))
  | rotateSwap {caller : ℕ} {flush : Bool} {dir : Dir} {e : Engine}
      (hcaller : m.callers caller = .rotating flush)
      (hm : Engine.Moves m.dir m.engine .rotateSwap dir e) :
      Moves m (.rotateSwap caller)
        ((m.advance .rotateSwap dir e).setCaller caller (.rotated flush))
  | rotateFail {caller : ℕ} {flush : Bool} {dir : Dir} {e : Engine}
      (hcaller : m.callers caller = .rotating flush)
      (hm : Engine.Moves m.dir m.engine .rotateFail dir e) :
      Moves m (.rotateFail caller) ((m.advance .rotateFail dir e).setCaller caller .outside)
  | enter {caller : ℕ} (hdrop : m.drop = .running) (hcaller : m.callers caller = .outside) :
      Moves m (.enter caller) (m.setCaller caller .entering)
  | error {caller : ℕ} (hcaller : m.callers caller = .entering) :
      Moves m (.takeError caller) { m.setCaller caller .outside with backgroundError := none }
  | noError {caller : ℕ} (hcaller : m.callers caller = .entering) :
      Moves m (.takeError caller) { m.setCaller caller .checking with holder := some caller }
  | checked {caller : ℕ} (hcaller : m.callers caller = .checking)
      (hpending : m.engine.pending = 0) :
      Moves m (.check caller) { m.setCaller caller .outside with holder := none }
  | wait {caller : ℕ} (hcaller : m.callers caller = .checking) (hpending : m.engine.pending ≠ 0) :
      Moves m (.check caller) { m.setCaller caller .asleep with holder := none }
  | exit {action : MonitorAction} (hlooks : m.looks action = true) (hshutdown : m.shutdown = true) :
      Moves m action { m with flusher := .exited }
  | doze (hflusher : m.flusher = .looking true) : Moves m .nextTask { m with flusher := .dozing }
  | takeFlush {action : MonitorAction} {dir : Dir} {e : Engine} (hlooks : m.looks action = true)
      (hm : Engine.Moves m.dir m.engine .take dir e) :
      Moves m action { m.advance .take dir e with flusher := .flushing }
  | takeCompact {action : MonitorAction} (hlooks : m.looks action = true) :
      Moves m action { m with shapeChanged := false, flusher := .compacting }
  | rest {action : MonitorAction} {retry : Bool} (hlooks : m.looks action = true)
      (hfree : m.queueFree = true) (hshutdown : m.shutdown = false)
      (htake : m.engine.step m.dir .take = none) (hshape : m.shapeChanged = false) :
      Moves m action { m with flusher := .asleep retry }
  | compact {caller : ℕ} (hdrop : m.drop = .running) (hcaller : m.callers caller = .outside) :
      Moves m (.compact caller) (m.setCaller caller .compacting)
  | plan {actor : Actor} {dir : Dir} {e : Engine} (hactor : m.inCompactAll actor = true)
      (hcompactor : m.compactor = none) (hm : Engine.Moves m.dir m.engine .plan dir e) :
      Moves m (.plan actor) ((m.advance .plan dir e).planned actor)
  | find {actor : Actor} {dir : Dir} {e : Engine} (hactor : m.works actor .compact = true)
      (hm : Engine.Moves m.dir m.engine .find dir e) :
      Moves m (.find actor) ((m.advance .find dir e).planned actor)
  | task {actor : Actor} {action : Action} {slot : Slot} {dir : Dir} {e : Engine}
      (htask : action.isTask = true) (hslot : action.slot = some slot)
      (hactor : m.works actor slot = true) (hm : Engine.Moves m.dir m.engine action dir e) :
      Moves m (.task actor action) (m.advance action dir e)
  | markFlushed {dir : Dir} {e : Engine} (hactor : m.works .flusher .flush = true)
      (hm : Engine.Moves m.dir m.engine (.done .flush) dir e) :
      Moves m .markFlushed
        { m.advance (.done .flush) dir e with flusher := .flushed, shapeChanged := true }
  | markMerged {actor : Actor} {dir : Dir} {e : Engine} (hactor : m.works actor .compact = true)
      (hm : Engine.Moves m.dir m.engine (.done .compact) dir e) :
      Moves m (.markMerged actor)
        { (m.advance (.done .compact) dir e).merged actor with shapeChanged := true }
  | failFlush {err : Error} {dir : Dir} {e : Engine} (hactor : m.works .flusher .flush = true)
      (hm : Engine.Moves m.dir m.engine (.fail .flush) dir e) :
      Moves m (.failFlush err) { m.advance (.fail .flush) dir e with flusher := .failed err }
  | failCompact {actor : Actor} {err : Error} {dir : Dir} {e : Engine}
      (hactor : m.works actor .compact = true)
      (hm : Engine.Moves m.dir m.engine (.fail .compact) dir e) :
      Moves m (.failCompact actor err)
        { (m.advance (.fail .compact) dir e).compactFailed err actor with compactor := none }
  | setBackgroundError {err : Error} (hflusher : m.flusher = .failed err) :
      Moves m .setBackgroundError
        { m with backgroundError := m.backgroundError.or (some err), flusher := .reported }
  | notifyAll {actor : Actor} (hactor : m.notifies actor = true) :
      Moves m (.notifyAll actor) (m.notified actor).wakeAll
  | wakeFlusher {retry : Bool} (hflusher : m.flusher = .asleep retry) :
      Moves m (.wake .flusher) { m with flusher := .looking retry }
  | wakeCaller {caller : ℕ} (hcaller : m.callers caller = .asleep) :
      Moves m (.wake (.caller caller)) (m.setCaller caller .entering)
  | shutdown (hdrop : m.drop = .running) (hinside : m.inside = []) :
      Moves m .shutdown { m with shutdown := true, drop := .stopping }
  | join (hdrop : m.drop = .joining) : Moves m .join { m with drop := .joined }

section

variable {m m' : Monitor}

theorem moves_of_lift {action : Action} {next : Monitor → Monitor}
    (h : m.lift action next = some m') :
    ∃ dir e, Engine.Moves m.dir m.engine action dir e ∧ m' = next (m.advance action dir e) := by
  obtain ⟨⟨dir, e⟩, hstep, rfl⟩ := Option.map_eq_some_iff.mp h
  exact ⟨dir, e, Engine.moves_of_step hstep, rfl⟩

theorem moves_of_pick {action : MonitorAction} {retry : Bool} (hlooks : m.looks action = true)
    (hfree : m.queueFree = true) (hshutdown : m.shutdown = false) :
    Moves m action (m.pick retry) := by
  unfold pick
  cases htake : m.engine.step m.dir .take with
  | some p =>
    obtain ⟨dir, e⟩ := p
    exact .takeFlush hlooks (Engine.moves_of_step htake)
  | none =>
    dsimp only
    split_ifs with hshape
    · exact .takeCompact hlooks
    · exact .rest hlooks hfree hshutdown htake (by simpa using hshape)

/-- **Every step is one of the moves.** -/
theorem moves_of_step {action : MonitorAction} (h : m.step action = some m') :
    m.Moves action m' := by
  cases action with
  | store action =>
    have hcall : action.isCall = true ∧ m.lift action id = some m' := by
      unfold step at h
      dsimp only at h
      split at h <;> split_ifs at h with hguard
      · exact ⟨rfl, h⟩
      · exact ⟨rfl, h⟩
      · exact ⟨hguard, h⟩
    obtain ⟨dir, e, hm, rfl⟩ := moves_of_lift hcall.2
    exact .store hcall.1 hm
  | refuse =>
    simp only [step] at h
    split_ifs at h
    cases h
    exact .refuse
  | rotate caller minBytes flush =>
    simp only [step] at h
    split_ifs at h with hguard
    obtain ⟨dir, e, hm, rfl⟩ := moves_of_lift h
    exact .rotate hguard.1 hguard.2.1 hm
  | rotateSwap caller =>
    simp only [step] at h
    split at h
    · obtain ⟨dir, e, hm, rfl⟩ := moves_of_lift h
      exact .rotateSwap ‹_› hm
    · cases h
  | rotateFail caller =>
    simp only [step] at h
    split at h
    · obtain ⟨dir, e, hm, rfl⟩ := moves_of_lift h
      exact .rotateFail ‹_› hm
    · cases h
  | enter caller =>
    simp only [step] at h
    split_ifs at h with hguard
    cases h
    exact .enter hguard.1 hguard.2
  | takeError caller =>
    simp only [step] at h
    split_ifs at h with hguard
    split at h <;> cases h
    · exact .error hguard.1
    · exact .noError hguard.1
  | check caller =>
    simp only [step] at h
    split_ifs at h with hcaller hpending <;> cases h
    · exact .checked hcaller hpending
    · exact .wait hcaller hpending
  | nextTask =>
    simp only [step] at h
    split at h
    · rename_i retry hflusher
      have hlooks : m.looks .nextTask = true := by
        unfold looks
        rw [hflusher]
        cases retry <;> rfl
      split_ifs at h with hfree hshutdown hretry <;> cases h
      · exact .exit hlooks hshutdown
      · exact .doze (by rw [hflusher, hretry])
      · exact moves_of_pick hlooks hfree (by simpa using hshutdown)
    · cases h
  | timeout =>
    simp only [step] at h
    split_ifs at h with hguard hshutdown <;> cases h
    · exact .exit (by simp [looks, hguard.1]) hshutdown
    · exact moves_of_pick (by simp [looks, hguard.1]) hguard.2 (by simpa using hshutdown)
  | compact caller =>
    simp only [step] at h
    split_ifs at h with hguard
    cases h
    exact .compact hguard.1 hguard.2
  | plan actor =>
    simp only [step] at h
    split_ifs at h with hguard
    obtain ⟨dir, e, hm, rfl⟩ := moves_of_lift h
    exact .plan hguard.1 hguard.2 hm
  | find actor =>
    simp only [step] at h
    split_ifs at h with hguard
    obtain ⟨dir, e, hm, rfl⟩ := moves_of_lift h
    exact .find hguard hm
  | task actor action =>
    simp only [step] at h
    split at h
    · split_ifs at h with hguard
      obtain ⟨dir, e, hm, rfl⟩ := moves_of_lift h
      exact .task hguard.1 ‹_› hguard.2 hm
    · cases h
  | markFlushed =>
    simp only [step] at h
    split_ifs at h with hguard
    obtain ⟨dir, e, hm, rfl⟩ := moves_of_lift h
    exact .markFlushed hguard.1 hm
  | markMerged actor =>
    simp only [step] at h
    split_ifs at h with hguard
    obtain ⟨dir, e, hm, rfl⟩ := moves_of_lift h
    exact .markMerged hguard.1 hm
  | failFlush err =>
    simp only [step] at h
    split_ifs at h with hguard
    obtain ⟨dir, e, hm, rfl⟩ := moves_of_lift h
    exact .failFlush hguard hm
  | failCompact actor err =>
    simp only [step] at h
    split_ifs at h with hguard
    obtain ⟨dir, e, hm, rfl⟩ := moves_of_lift h
    exact .failCompact hguard hm
  | setBackgroundError =>
    simp only [step] at h
    split at h
    · cases h
      exact .setBackgroundError ‹_›
    · cases h
  | notifyAll actor =>
    simp only [step] at h
    split_ifs at h with hactor
    cases h
    exact .notifyAll hactor
  | wake actor =>
    cases actor with
    | flusher =>
      simp only [step] at h
      split at h
      · cases h
        exact .wakeFlusher ‹_›
      · cases h
    | caller id =>
      simp only [step] at h
      split_ifs at h with hcaller
      cases h
      exact .wakeCaller hcaller
    | dropper => cases h
  | shutdown =>
    simp only [step] at h
    split_ifs at h with hguard
    cases h
    exact .shutdown hguard.1 hguard.2.1
  | join =>
    simp only [step] at h
    split_ifs at h with hguard
    cases h
    exact .join hguard.1

/-! ### The store below -/

/-- The store, without the threads. -/
def world (m : Monitor) : World := ⟨m.dir, some m.engine, m.history⟩

theorem engine_of_world (h : m'.world = m.world) : m'.engine = m.engine :=
  Option.some.inj (World.mk.inj h).2.1

theorem world_moveActor (m : Monitor) (flusher : FlusherPc) (caller : CallerPc) (actor : Actor) :
    (m.moveActor flusher caller actor).world = m.world := by
  cases actor <;> rfl

theorem world_planned (m : Monitor) (actor : Actor) : (m.planned actor).world = m.world := by
  unfold planned
  split_ifs
  · exact m.world_moveActor _ _ actor
  · rfl

theorem world_notified (m : Monitor) (actor : Actor) : (m.notified actor).world = m.world := by
  cases actor with
  | flusher =>
    unfold notified
    dsimp only
    split <;> rfl
  | caller id =>
    unfold notified
    dsimp only
    split <;> rfl
  | dropper => rfl

/-- What a step of the threads does to the store: a step of the store, which is the failure of a
flush only where the flush thread has failed. -/
structure Below (m : Monitor) (action : MonitorAction) (m' : Monitor) (below : Action) : Prop where
  moves : Engine.Moves m.dir m.engine below m'.dir m'.engine
  history : m'.history = m.history.observe below m.engine m'.engine
  fails : below = .fail .flush → ∃ err, action = .failFlush err

theorem below_of_advance {action : MonitorAction} {below : Action} {dir : Dir} {e : Engine}
    (hm : Engine.Moves m.dir m.engine below dir e)
    (hworld : m'.world = (m.advance below dir e).world)
    (hfails : below = .fail .flush → ∃ err, action = .failFlush err) :
    ∃ below, Below m action m' below := by
  obtain ⟨hdir, hengine, hhistory⟩ := World.mk.inj hworld
  refine ⟨below, ?_, ?_, hfails⟩
  · rw [hdir, Option.some.inj hengine]
    exact hm
  · rw [hhistory, Option.some.inj hengine]
    rfl

/-- **Each step is one of the store, or leaves the store alone.** -/
theorem Moves.below {action : MonitorAction} (h : m.Moves action m') :
    m'.world = m.world ∨ ∃ below, Below m action m' below := by
  cases h with
  | @store _ _ _ hcall hm =>
    refine Or.inr (below_of_advance hm rfl ?_)
    rintro rfl
    cases hcall
  | @task _ _ _ _ _ htask _ _ hm =>
    refine Or.inr (below_of_advance hm rfl ?_)
    rintro rfl
    cases htask
  | rotate _ _ hm | rotateSwap _ hm | rotateFail _ hm | takeFlush _ hm | markFlushed _ hm =>
    exact Or.inr (below_of_advance hm rfl (by simp))
  | @failFlush err _ _ _ hm => exact Or.inr (below_of_advance hm rfl fun _ => ⟨err, rfl⟩)
  | plan _ _ hm | find _ hm => exact Or.inr (below_of_advance hm (world_planned _ _) (by simp))
  | markMerged _ hm | failCompact _ hm =>
    exact Or.inr (below_of_advance hm (world_moveActor _ _ _ _) (by simp))
  | notifyAll => exact Or.inl (m.world_notified _)
  | _ => exact Or.inl rfl

/-- What the steps of an open store keep, the steps of its threads keep. -/
theorem Moves.invariant {P : Dir → Engine → History → Prop} {action : MonitorAction}
    (h : m.Moves action m')
    (hstep : ∀ below, Below m action m' below → P m.dir m.engine m.history →
      P m'.dir m'.engine (m.history.observe below m.engine m'.engine))
    (hm : P m.dir m.engine m.history) : P m'.dir m'.engine m'.history := by
  rcases h.below with hworld | ⟨below, hbelow⟩
  · obtain ⟨hdir, hengine, hhistory⟩ := World.mk.inj hworld
    rwa [hdir, Option.some.inj hengine, hhistory]
  · rw [hbelow.history]
    exact hstep below hbelow hm

end

end Monitor

end Lsmkv
