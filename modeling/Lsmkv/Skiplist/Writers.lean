import Lsmkv.Skiplist.Calls

/-!
# Writers of an engine with a skiplist (`Shared::write`, `Shared::rotate`)

Any number of threads call `Engine::set` and `Engine::delete` on an engine whose active memtable is
a skiplist, and anyone calls `Engine::flush`.  A write holds the log for reading while the log
numbers its record, while `active.insert` runs, step by step as in the skiplist's own machine, and
while `active.approx_bytes` loads its two counters.  Then it lets go of the log and, if the table is
large enough, calls `rotate`, which waits until nobody holds the log, checks again and replaces the
table.

Of the log only the numbers it hands out are here, and of the frozen tables only how many there are.
A log that fails may do so after it has numbered the record.  `Wal::create` succeeds.  A thread that
panics lets go of the log, which it holds for reading, and never writes again.

`Stage.rotating` remembers how many tables were frozen when the thread measured its own, and
`Writers.frozen` counts them; no branch reads either.
-/

namespace Lsmkv

open Skiplist

/-- Where a thread stands in `Shared::write`. -/
inductive Stage where
  | outside
  /-- In the append to the log. -/
  | logging (key : Bytes) (value : Option Bytes)
  /-- The log has numbered the record. -/
  | logged (e : Entry)
  /-- In `active.insert`. -/
  | inserting
  /-- In `active.approx_bytes`, before the load of `bytes`. -/
  | measuring
  /-- In `active.approx_bytes`, before the load of `next_node`. -/
  | measured (bytes : ℕ)
  /-- In `rotate`, before it has the locks. -/
  | rotating (frozen : ℕ)
  | dead
  deriving DecidableEq, Repr

/-- Whether a thread holds the log for reading. -/
def Stage.holdsLog : Stage → Bool
  | logging _ _ => true
  | logged _ => true
  | inserting => true
  | measuring => true
  | measured _ => true
  | _ => false

/-- What happens next. -/
inductive Act where
  | write (key : Bytes) (value : Option Bytes)
  | number
  | fail
  | insert
  | step
  | spurious
  | finish
  | loadBytes
  | loadNodes
  | rotate
  | flush
  deriving DecidableEq, Repr

/-- The active table with its threads, and where each of them stands in its write. -/
structure Writers where
  machine : Machine
  stage : ℕ → Stage
  lastSeq : ℕ
  frozen : ℕ

namespace Writers

/-- A fresh table, and a log that continues after `lastSeq`. -/
def initial (memtableBytes lastSeq : ℕ) : Writers :=
  ⟨Machine.initial (.new memtableBytes), fun _ => .outside, lastSeq, 0⟩

/-- Moves a thread. -/
def goto (w : Writers) (u : ℕ) (stage : Stage) : Writers :=
  { w with stage := Function.update w.stage u stage }

/-- A step of a thread in the table. -/
def call (w : Writers) (u : ℕ) (event : Skiplist.Event) (stage : Pc → Stage) : Option Writers :=
  (w.machine.step (u, event)).map fun machine =>
    { w with machine := machine }.goto u (stage (machine.thread u))

/-- An `insert` that panics takes its thread with it. -/
def proceed : Pc → Stage
  | .panicked _ => .dead
  | _ => .inserting

/-- Whether `rotate` can have the log for writing. -/
def unlocked (w : Writers) (threads : ℕ) : Prop := ∀ u < threads, (w.stage u).holdsLog = false

instance (w : Writers) (threads : ℕ) : Decidable (w.unlocked threads) :=
  inferInstanceAs (Decidable (∀ u < threads, (w.stage u).holdsLog = false))

/-- The active memtable is frozen, and a fresh one takes its place. -/
def freeze (w : Writers) (memtableBytes : ℕ) : Writers :=
  { w with machine := Machine.initial (.new memtableBytes), frozen := w.frozen + 1 }

/-- Freezes the active memtable, unless it is empty or still smaller than `minBytes`. -/
def rotate (w : Writers) (memtableBytes threads minBytes : ℕ) : Option Writers :=
  if w.unlocked threads then
    if w.machine.table.isEmpty ∨ w.machine.table.approxBytes < minBytes then some w
    else some (w.freeze memtableBytes)
  else none

/-- One step of one of the writing threads. -/
def stepThread (memtableBytes threads : ℕ) (w : Writers) (u : ℕ) (act : Act) : Option Writers :=
  match w.stage u, act with
  | .outside, .write key value => some (w.goto u (.logging key value))
  | .logging key value, .number =>
    if w.lastSeq + 1 < u64Limit then
      some ({ w with lastSeq := w.lastSeq + 1 }.goto u (.logged ⟨key, w.lastSeq + 1, value⟩))
    else none
  | .logging _ _, .fail => some (w.goto u .outside)
  | .logged _, .fail => some (w.goto u .outside)
  | .logged e, .insert => w.call u (.insert e) fun _ => .inserting
  | .inserting, .step => w.call u .step proceed
  | .inserting, .spurious => w.call u .spurious proceed
  | .inserting, .finish =>
    match w.machine.thread u with
    | .inserted _ _ => w.call u .finish fun _ => .measuring
    | _ => none
  | .measuring, .loadBytes => some (w.goto u (.measured w.machine.table.bytes))
  | .measured bytes, .loadNodes =>
    let table := w.machine.table
    if memtableBytes ≤ table.reported bytes table.nextNode then some (w.goto u (.rotating w.frozen))
    else some (w.goto u .outside)
  | .rotating _, .rotate =>
    (w.rotate memtableBytes threads memtableBytes).map fun w => w.goto u .outside
  | _, _ => none

/-- One step of a writing thread, or an `Engine::flush` of whoever. -/
def step (memtableBytes threads : ℕ) (w : Writers) (label : ℕ × Act) : Option Writers :=
  if label.2 = .flush then w.rotate memtableBytes threads 0
  else if label.1 < threads then w.stepThread memtableBytes threads label.1 label.2
  else none

/-- The outcomes of the steps. -/
inductive Moves (memtableBytes threads : ℕ) (w : Writers) : Writers → Prop
  | write {u : ℕ} {key : Bytes} {value : Option Bytes} (hu : u < threads)
      (h : w.stage u = .outside) : Moves memtableBytes threads w (w.goto u (.logging key value))
  | number {u : ℕ} {key : Bytes} {value : Option Bytes} (hu : u < threads)
      (h : w.stage u = .logging key value) (hseq : w.lastSeq + 1 < u64Limit) :
      Moves memtableBytes threads w
        ({ w with lastSeq := w.lastSeq + 1 }.goto u (.logged ⟨key, w.lastSeq + 1, value⟩))
  | fail {u : ℕ} (hu : u < threads)
      (h : (∃ key value, w.stage u = .logging key value) ∨ ∃ e, w.stage u = .logged e) :
      Moves memtableBytes threads w (w.goto u .outside)
  | insert {u : ℕ} {e : Entry} {m : Machine} (hu : u < threads) (h : w.stage u = .logged e)
      (hm : w.machine.step (u, .insert e) = some m) :
      Moves memtableBytes threads w ({ w with machine := m }.goto u .inserting)
  | step {u : ℕ} {event : Skiplist.Event} {m : Machine} (hu : u < threads)
      (h : w.stage u = .inserting) (hcalls : event.calls = [])
      (hm : w.machine.step (u, event) = some m) :
      Moves memtableBytes threads w ({ w with machine := m }.goto u (proceed (m.thread u)))
  | finish {u : ℕ} {e : Entry} {newest : Bool} {m : Machine} (hu : u < threads)
      (h : w.stage u = .inserting) (hpc : w.machine.thread u = .inserted e newest)
      (hm : w.machine.step (u, .finish) = some m) :
      Moves memtableBytes threads w ({ w with machine := m }.goto u .measuring)
  | loadBytes {u : ℕ} (hu : u < threads) (h : w.stage u = .measuring) :
      Moves memtableBytes threads w (w.goto u (.measured w.machine.table.bytes))
  | large {u bytes : ℕ} (hu : u < threads) (h : w.stage u = .measured bytes)
      (hlarge : memtableBytes ≤ w.machine.table.reported bytes w.machine.table.nextNode) :
      Moves memtableBytes threads w (w.goto u (.rotating w.frozen))
  | small {u bytes : ℕ} (hu : u < threads) (h : w.stage u = .measured bytes)
      (hsmall : w.machine.table.reported bytes w.machine.table.nextNode < memtableBytes) :
      Moves memtableBytes threads w (w.goto u .outside)
  | keep {u frozen : ℕ} (hu : u < threads) (h : w.stage u = .rotating frozen)
      (hunlocked : w.unlocked threads)
      (hkeep : w.machine.table.isEmpty ∨ w.machine.table.approxBytes < memtableBytes) :
      Moves memtableBytes threads w (w.goto u .outside)
  | rotate {u frozen : ℕ} (hu : u < threads) (h : w.stage u = .rotating frozen)
      (hunlocked : w.unlocked threads) :
      Moves memtableBytes threads w ((w.freeze memtableBytes).goto u .outside)
  | flushNothing : Moves memtableBytes threads w w
  | flush (hunlocked : w.unlocked threads) : Moves memtableBytes threads w (w.freeze memtableBytes)

theorem rotate_cases {memtableBytes threads minBytes : ℕ} {w w' : Writers}
    (h : w.rotate memtableBytes threads minBytes = some w') : w.unlocked threads
      ∧ ((w.machine.table.isEmpty ∨ w.machine.table.approxBytes < minBytes) ∧ w' = w
        ∨ ¬(w.machine.table.isEmpty ∨ w.machine.table.approxBytes < minBytes)
          ∧ w' = w.freeze memtableBytes) := by
  unfold rotate at h
  split_ifs at h with hunlocked hkeep
  · exact ⟨hunlocked, Or.inl ⟨hkeep, (Option.some.inj h).symm⟩⟩
  · exact ⟨hunlocked, Or.inr ⟨hkeep, (Option.some.inj h).symm⟩⟩

theorem call_eq_some {w w' : Writers} {u : ℕ} {event : Skiplist.Event} {stage : Pc → Stage}
    (h : w.call u event stage = some w') : ∃ m, w.machine.step (u, event) = some m
      ∧ w' = { w with machine := m }.goto u (stage (m.thread u)) := by
  unfold call at h
  obtain ⟨m, hm, rfl⟩ := Option.map_eq_some_iff.mp h
  exact ⟨m, hm, rfl⟩

/-- **Every step is one of the moves.** -/
theorem moves_of_step {memtableBytes threads : ℕ} {w w' : Writers} {label : ℕ × Act}
    (h : step memtableBytes threads w label = some w') : Moves memtableBytes threads w w' := by
  obtain ⟨u, act⟩ := label
  unfold step at h
  dsimp only at h
  split_ifs at h with hflush hu
  · obtain ⟨hunlocked, ⟨-, rfl⟩ | ⟨-, rfl⟩⟩ := rotate_cases h
    · exact .flushNothing
    · exact .flush hunlocked
  · unfold stepThread at h
    split at h <;> rename_i hstage
    · cases h
      exact .write hu hstage
    · split_ifs at h with hseq
      cases h
      exact .number hu hstage hseq
    · cases h
      exact .fail hu (Or.inl ⟨_, _, hstage⟩)
    · cases h
      exact .fail hu (Or.inr ⟨_, hstage⟩)
    · obtain ⟨m, hm, rfl⟩ := call_eq_some h
      exact .insert hu hstage hm
    · obtain ⟨m, hm, rfl⟩ := call_eq_some h
      exact .step hu hstage rfl hm
    · obtain ⟨m, hm, rfl⟩ := call_eq_some h
      exact .step hu hstage rfl hm
    · split at h <;> rename_i hpc
      · obtain ⟨m, hm, rfl⟩ := call_eq_some h
        exact .finish hu hstage hpc hm
      · cases h
    · cases h
      exact .loadBytes hu hstage
    · dsimp only at h
      split_ifs at h with hlarge
      · cases h
        exact .large hu hstage hlarge
      · cases h
        exact .small hu hstage (not_le.mp hlarge)
    · obtain ⟨w'', hrotate, rfl⟩ := Option.map_eq_some_iff.mp h
      obtain ⟨hunlocked, ⟨hkeep, rfl⟩ | ⟨-, rfl⟩⟩ := rotate_cases hrotate
      · exact .keep hu hstage hunlocked hkeep
      · exact .rotate hu hstage hunlocked
    · cases h

/-- The runs of `threads` writing threads. -/
abbrev Runs (memtableBytes threads : ℕ) (w : Writers) : Prop :=
  Reachable (step memtableBytes threads) (fun _ _ => True)
    (fun w => ∃ lastSeq, w = initial memtableBytes lastSeq) w

end Writers

end Lsmkv
