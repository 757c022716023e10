import Lsmkv.Lib.Transition
import Lsmkv.Wal.Log

/-!
# The shared log (`wal::Shared`)

Several threads append to one log, and under the interval policy a background thread flushes it.
`step` moves one thread from one of its lock boundaries to the next: the two checks of `append`,
taking the append lock and encoding, `write_pending`, the two ends of `sync_data`, and the turns
of the loop of `sync_through`.  The operating system decides whether a `write_all` or a
`sync_data` fails, and how much of the buffer a failed `write_all` leaves in the file.

`Shared.returned` and `Shared.synced` are history variables: the records whose append returned
`Ok`, and the content the file had when each successful `sync_data` began.  No branch of `step`
reads them.

A sequence number past `u64::MAX` would overflow the counter, so that append does not step.
-/

namespace Lsmkv.Wal

open Record Replay

/-- `MAX_PENDING_BYTES`. -/
def maxPendingBytes : ℕ := 64 * 1024

/-- A thread of a client, or the background thread of the interval policy. -/
inductive Thread where
  | syncer
  | client (id : ℕ)
  deriving DecidableEq, Repr

/-- Where a thread stands in its call. -/
inductive Pc where
  /-- Outside the log. -/
  | idle
  /-- In `append`, after `take_background_error`. -/
  | called (key : Bytes) (value : Option Bytes)
  /-- In `append`, after the check of `failed`. -/
  | accepted (key : Bytes) (value : Option Bytes)
  /-- In `append`, holding the append lock, with a buffer to write out. -/
  | encoded (e : Entry)
  /-- In `append` under `Always`, holding the append lock, the buffer written. -/
  | unflushed (e : Entry)
  /-- In the `sync_data` of an append under `Always`, which began at this content. -/
  | flushing (e : Entry) (begun : Bytes)
  /-- At the head of the loop of `sync_through`, for the append of `record` or for `sync`. -/
  | waiting (seq : ℕ) (record : Option Entry)
  /-- Owns the next flush. -/
  | owning (seq : ℕ) (record : Option Entry)
  /-- In `write_and_flush`, the buffer written up to `target`. -/
  | drained (seq : ℕ) (record : Option Entry) (target : ℕ)
  /-- In the `sync_data` of `write_and_flush`, which began at this content. -/
  | syncing (seq : ℕ) (record : Option Entry) (target : ℕ) (begun : Bytes)
  /-- `write_and_flush` returned: what it covered, or `none` for an error. -/
  | flushed (seq : ℕ) (record : Option Entry) (outcome : Option ℕ)
  /-- The append of `e` returned `Ok`. -/
  | returned (e : Entry)
  deriving DecidableEq, Repr

/-- What a thread does next. -/
inductive Event where
  | append (key : Bytes) (value : Option Bytes)
  | accept
  | encode
  | write (fault : Option ℕ)
  | beginFlush
  | endFlush (ok : Bool)
  | sync
  | check
  | publish
  | resume
  deriving DecidableEq, Repr

/-- Whether the writes and flushes of an event succeed. -/
def Event.faultless : Event → Bool
  | .write fault => fault.isNone
  | .endFlush ok => ok
  | _ => true

/-- An open log with the threads that use it. -/
structure Shared extends Log where
  durable : ℕ
  inProgress : Bool
  backgroundError : Bool
  /-- The holder of the append lock. -/
  lock : Option Thread
  thread : Thread → Pc
  returned : List Entry
  synced : List Bytes

namespace Shared

/-- `Wal::new`, after `Wal::recover` found `r`. -/
def new (policy : SyncPolicy) (r : Recovered) : Shared where
  policy := policy
  file := r.file
  buf := []
  written := r.lastSeq
  lastSeq := r.lastSeq
  durable := r.lastSeq
  inProgress := false
  failed := false
  backgroundError := false
  lock := none
  thread := fun _ => .idle
  opened := r
  appended := []
  returned := []
  synced := []

/-- Moves a thread. -/
def goto (s : Shared) (t : Thread) (pc : Pc) : Shared :=
  { s with thread := Function.update s.thread t pc }

/-- The append of `e` returns `Ok`. -/
def acknowledge (s : Shared) (t : Thread) (e : Entry) : Shared :=
  { s.goto t (.returned e) with returned := s.returned ++ [e] }

/-- The call returns an error, which the background thread leaves for the next append. -/
def fail (s : Shared) (t : Thread) : Shared :=
  { s.goto t .idle with backgroundError := if t = .syncer then true else s.backgroundError }

/-- The append of `e` releases the append lock, and waits for its record under `Group`. -/
def release (s : Shared) (t : Thread) (e : Entry) : Shared :=
  let s := { s with lock := none }
  if s.policy = .group then s.goto t (.waiting e.seq (some e)) else s.acknowledge t e

/-- The part of `append` that takes the append lock and encodes the record. -/
def encodeRecord (s : Shared) (t : Thread) (key : Bytes) (value : Option Bytes) : Option Shared :=
  let seq := s.lastSeq + 1
  if s.lock = none ∧ seq < u64Limit then
    match encode s.buf seq key value with
    | (.error _, buf) => some ({ s with buf := buf }.fail t)
    | (.ok (), buf) =>
      let e : Entry := ⟨key, seq, value⟩
      let s := { s with toLog := s.push e buf }
      if s.policy = .always ∨ maxPendingBytes ≤ s.buf.length then
        some ({ s with lock := some t }.goto t (.encoded e))
      else some (s.release t e)
  else none

/-- One turn of the loop of `sync_through`.  A thread that finds a flush in flight waits. -/
def checkDurable (s : Shared) (t : Thread) (seq : ℕ) (record : Option Entry) : Option Shared :=
  if seq ≤ s.durable then
    match record with
    | some e => some (s.acknowledge t e)
    | none => some (s.goto t .idle)
  else if s.failed then some (s.fail t)
  else if s.inProgress then none
  else some ({ s with inProgress := true }.goto t (.owning seq record))

/-- One thread moves to its next lock boundary, if it can take the event there. -/
def step (s : Shared) (label : Thread × Event) : Option Shared :=
  let t := label.1
  match s.thread t, label.2 with
  | .idle, .append key value =>
    if t = .syncer then none
    else if s.backgroundError then some { s with backgroundError := false }
    else some (s.goto t (.called key value))
  | .called key value, .accept =>
    if s.failed then some (s.fail t) else some (s.goto t (.accepted key value))
  | .accepted key value, .encode => s.encodeRecord t key value
  | .encoded e, .write fault =>
    match s.writePending fault with
    | (log, false) => some ({ s with toLog := log, lock := none }.fail t)
    | (log, true) =>
      let s := { s with toLog := log }
      if s.policy = .always then some (s.goto t (.unflushed e)) else some (s.release t e)
  | .unflushed e, .beginFlush => some (s.goto t (.flushing e s.file))
  | .flushing e begun, .endFlush ok =>
    if ok then some ({ s with synced := s.synced ++ [begun] }.release t e)
    else some ({ s with lock := none }.fail t)
  | .idle, .sync =>
    if t = .syncer ∧ s.policy ≠ .interval then none else some (s.goto t (.waiting s.lastSeq none))
  | .waiting seq record, .check => s.checkDurable t seq record
  | .owning seq record, .write fault =>
    if s.lock = none then
      match s.writePending fault with
      | (log, false) => some ({ s with toLog := log }.goto t (.flushed seq record none))
      | (log, true) => some ({ s with toLog := log }.goto t (.drained seq record log.written))
    else none
  | .drained seq record target, .beginFlush => some (s.goto t (.syncing seq record target s.file))
  | .syncing seq record target begun, .endFlush ok =>
    if ok then
      some ({ s with synced := s.synced ++ [begun] }.goto t (.flushed seq record (some target)))
    else some (s.goto t (.flushed seq record none))
  | .flushed seq record outcome, .publish =>
    let s := { s with inProgress := false }
    match outcome with
    | some target =>
      some ({ s with durable := max s.durable target }.goto t (.waiting seq record))
    | none => some (s.fail t)
  | .returned _, .resume => some (s.goto t .idle)
  | _, _ => none

/-! ### Where a move leaves the threads -/

@[simp]
theorem thread_goto_self (s : Shared) (t : Thread) (pc : Pc) : (s.goto t pc).thread t = pc :=
  Function.update_self _ _ _

@[simp]
theorem thread_acknowledge_self (s : Shared) (t : Thread) (e : Entry) :
    (s.acknowledge t e).thread t = .returned e := Function.update_self _ _ _

@[simp]
theorem thread_fail_self (s : Shared) (t : Thread) : (s.fail t).thread t = .idle :=
  Function.update_self _ _ _

theorem thread_release_self (s : Shared) (t : Thread) (e : Entry) :
    (s.release t e).thread t = .waiting e.seq (some e) ∨ (s.release t e).thread t
    = .returned e := by
  unfold release
  dsimp only
  split_ifs
  · exact Or.inl (thread_goto_self _ _ _)
  · exact Or.inr (thread_acknowledge_self _ _ _)

theorem thread_release_of_ne (s : Shared) {t u : Thread} (e : Entry) (h : u ≠ t) :
    (s.release t e).thread u = s.thread u := by
  unfold release
  dsimp only
  split_ifs <;> exact Function.update_of_ne h _ _

/-! ### Moves that leave the records alone -/

@[simp]
theorem toLog_goto (s : Shared) (t : Thread) (pc : Pc) : (s.goto t pc).toLog = s.toLog := rfl

@[simp]
theorem toLog_acknowledge (s : Shared) (t : Thread) (e : Entry) :
    (s.acknowledge t e).toLog = s.toLog := rfl

@[simp]
theorem toLog_fail (s : Shared) (t : Thread) : (s.fail t).toLog = s.toLog := rfl

@[simp]
theorem toLog_release (s : Shared) (t : Thread) (e : Entry) :
    (s.release t e).toLog = s.toLog := by
  unfold release
  dsimp only
  split_ifs <;> rfl

end Shared

end Lsmkv.Wal
