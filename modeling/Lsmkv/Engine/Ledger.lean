import Lsmkv.Engine.Layers
import Lsmkv.Engine.Logs

/-!
# The mutations of an orderly run

In an orderly run every mutation ever made is accounted for.  In the order of their numbers they
are those whose logs are gone, and then the records of the logs in the directory, oldest log first:
of the logs a flush is removing, of each frozen memtable, and of the active one
(`Ledger.Holds.history`).  The memory answers for them layer by layer, the active memtable lacking
only the records that threads still hold; and the tables the manifest on disk names represent at
least everything whose log may be missing.

`Ledger` names the parts that the state of the store does not determine.
-/

namespace Lsmkv

open Wal State

/-! ### The records of the logs, by what they are for -/

namespace Engine

variable (dir : Dir) (e : Engine)

/-- The records of the logs a flush is removing. -/
def leaving : List Entry := (e.jobs .flush).logsToRemove.flatMap (e.recordsOf dir)

/-- The records of the frozen memtables, oldest first. -/
def segments : List (List Entry) :=
  e.state.frozen.reverse.map fun f => f.logs.flatMap (e.recordsOf dir)

/-- The records of the active memtable's logs. -/
def activeRecords : List Entry := e.state.activeLogs.flatMap (e.recordsOf dir)

/-- The records of all logs, in the order of their numbers. -/
def records : List Entry := e.liveLogs.flatMap (e.recordsOf dir)

theorem records_eq : e.records dir
    = e.leaving dir ++ (e.segments dir).flatten ++ e.activeRecords dir := by
  rw [records, liveLogs, List.flatMap_append, List.flatMap_append, List.flatMap_assoc]
  rfl

end Engine

/-- What a commit knows about sequence numbers: what it will store is covered by the number it
read. -/
def JobPc.Numbered (snapshotSeq walSeq : ℕ) (first : List Entry) (slot : Slot) : JobPc → Prop
  | .ready _ lastSeq => lastSeq ≤ walSeq ∧ (slot = .flush → ∀ v ∈ first, v.seq ≤ lastSeq)
  | .committing _ next _ => snapshotSeq ≤ next.lastSeq ∧ next.lastSeq ≤ walSeq
    ∧ (slot = .flush → ∀ v ∈ first, v.seq ≤ next.lastSeq)
  | _ => True

/-- The parts of the history that the state does not determine. -/
structure Ledger where
  /-- The mutations made before the session. -/
  past : List Entry
  /-- The mutations whose logs are gone. -/
  gone : List Entry
  /-- What the active memtable took. -/
  current : List Entry
  /-- What the files in memory represent. -/
  stored : List Entry
  /-- What the files on disk represent. -/
  disk : List Entry

/-- The ledger is right about the state. -/
structure Ledger.Holds (l : Ledger) (dir : Dir) (e : Engine) (h : History) : Prop where
  start : ∀ key, h.start key = (newest l.past key).bind Version.value
  history : l.past ++ h.session.map Prod.snd = l.gone ++ e.records dir
  increasing : (l.gone ++ e.records dir).Pairwise fun v w => v.seq < w.seq
  bounded : ∀ v ∈ l.gone ++ e.records dir, v.seq ≤ e.wal.lastSeq
  /-- The current log was opened in this session or has nothing from it yet. -/
  suffix : e.wal.appended <:+ h.session.map Prod.snd
  inserted : ∀ v ∈ h.inserted, v ∈ h.session.map Prod.snd
    ∧ (v ∈ e.wal.appended → v ∈ e.wal.returned)
  layers : Layers e.state l.stored (l.gone ++ e.leaving dir) (e.segments dir) l.current
  current_sub : ∀ v ∈ l.current, v ∈ e.activeRecords dir
  pending : ∀ v ∈ e.activeRecords dir, v ∈ l.current ∨ e.wal.Held v
  older : ∀ v ∈ l.gone ++ e.leaving dir ++ (e.segments dir).flatten,
    v.seq ≤ e.wal.opened.lastSeq
  disk : dir.Stores l.disk
  spans : Spans (l.gone ++ e.leaving dir) ((e.segments dir).headD l.current) l.disk
  settled : ∀ v ∈ l.stored ++ l.disk, v.seq ≤ e.wal.opened.lastSeq
  numbered : ∀ v ∈ l.stored, v.seq ≤ e.snapshot.lastSeq
  snapshot_le : e.snapshot.lastSeq ≤ e.wal.lastSeq
  last : e.wal.lastSeq = e.snapshot.lastSeq
    ∨ ∃ v ∈ (e.segments dir).flatten ++ e.activeRecords dir, v.seq = e.wal.lastSeq
  jobs : ∀ slot, (e.jobs slot).Numbered e.snapshot.lastSeq e.wal.lastSeq
    ((e.segments dir).headD []) slot

section

variable {dir dir' : Dir} {e e' : Engine} {h h' : History} {l : Ledger}

/-! ### Records and steps -/

theorem JobPc.Numbered.mono {snapshotSeq walSeq walSeq' : ℕ} {first : List Entry} {slot : Slot}
    {pc : JobPc} (hn : pc.Numbered snapshotSeq walSeq first slot) (hle : walSeq ≤ walSeq') :
    pc.Numbered snapshotSeq walSeq' first slot := by
  cases pc with
  | ready job lastSeq => exact ⟨hn.1.trans hle, hn.2⟩
  | committing job next phase => exact ⟨hn.1, hn.2.1.trans hle, hn.2.2⟩
  | idle | planned | writing | unlinking => trivial

/-- A compaction stores nothing that is not in tables already. -/
theorem JobPc.Numbered.compact {snapshotSeq walSeq : ℕ} {first : List Entry} {pc : JobPc}
    (hn : pc.Numbered snapshotSeq walSeq first .compact) (first' : List Entry) :
    pc.Numbered snapshotSeq walSeq first' .compact := by
  cases pc with
  | ready job lastSeq => exact ⟨hn.1, fun hslot => by cases hslot⟩
  | committing job next phase => exact ⟨hn.1, hn.2.1, fun hslot => by cases hslot⟩
  | idle | planned | writing | unlinking => trivial

/-- Only a task that holds the durable state relies on the snapshot. -/
theorem JobPc.Numbered.resnapshot {snapshotSeq walSeq : ℕ} {first : List Entry} {slot : Slot}
    {pc : JobPc} (hn : pc.Numbered snapshotSeq walSeq first slot) (hfree : pc.isCommitting = false)
    (snapshotSeq' : ℕ) : pc.Numbered snapshotSeq' walSeq first slot := by
  cases pc with
  | committing => cases hfree
  | idle | planned | writing | ready | unlinking => exact hn

theorem observe_session_eq (h : History) (action : Action) (e e' : Engine) :
    (h.observe action e e').session = h.session ++ (e.encodedBy e').map (e.walNumber, ·) := by
  unfold History.observe Engine.encodedBy
  dsimp only
  split_ifs <;> rfl

theorem observe_session (h : History) (action : Action) (e e' : Engine) :
    (h.observe action e e').session.map Prod.snd = h.session.map Prod.snd ++ e.encodedBy e' := by
  rw [observe_session_eq, List.map_append, List.map_map]
  congr 1
  exact List.map_id _

/-- The current log is the last one. -/
theorem Logs.lt_walNumber (hl : Logs dir e) {n : ℕ}
    (hn : n ∈ (e.jobs .flush).logsToRemove ++ e.state.frozen.reverse.flatMap Frozen.logs) :
    n < e.walNumber := by
  have hsorted := (List.pairwise_append.mp hl.sorted).1
  obtain ⟨older, holder⟩ := hl.current
  rw [Engine.liveLogs, holder] at hsorted
  exact (List.pairwise_append.mp hsorted).2.2 n hn e.walNumber (by simp)

/-- **The records after a step** that keeps the lists of logs: the active ones grow by what the step
encoded. -/
theorem RecordsGrow.records (hg : RecordsGrow dir e dir' e') (hl : Logs dir e)
    (hleft : (e'.jobs .flush).logsToRemove = (e.jobs .flush).logsToRemove)
    (hfrozen : e'.state.frozen = e.state.frozen)
    (hactive : e'.state.activeLogs = e.state.activeLogs) :
    e'.leaving dir' = e.leaving dir ∧ e'.segments dir' = e.segments dir
      ∧ e'.activeRecords dir' = e.activeRecords dir ++ e.encodedBy e' := by
  have hlive : e'.liveLogs = e.liveLogs := by
    rw [Engine.liveLogs, Engine.liveLogs, hleft, hfrozen, hactive]
  have hkept : ∀ n ∈ e.liveLogs, e'.recordsOf dir' n
      = e.recordsOf dir n ++ if n = e.walNumber then e.encodedBy e' else [] :=
    fun n hn => hg.kept n hn (hlive ▸ hn)
  have hsame : ∀ n ∈ e.liveLogs, n ≠ e.walNumber → e'.recordsOf dir' n = e.recordsOf dir n :=
    fun n hn hne => by rw [hkept n hn, if_neg hne, List.append_nil]
  have hold : ∀ n ∈ (e.jobs .flush).logsToRemove ++ e.state.frozen.reverse.flatMap Frozen.logs,
      e'.recordsOf dir' n = e.recordsOf dir n :=
    fun n hn => hsame n (List.mem_append_left _ hn) (hl.lt_walNumber hn).ne
  refine ⟨?_, ?_, ?_⟩
  · rw [Engine.leaving, Engine.leaving, hleft]
    exact List.flatMap_congr fun n hn => hold n (List.mem_append_left _ hn)
  · rw [Engine.segments, Engine.segments, hfrozen]
    refine List.map_congr_left fun f hf => List.flatMap_congr fun n hn => ?_
    exact hold n (List.mem_append_right _ (List.mem_flatMap.mpr ⟨f, hf, hn⟩))
  · obtain ⟨older, holder⟩ := hl.current
    have hsorted := (List.pairwise_append.mp hl.sorted).1
    rw [Engine.liveLogs, holder] at hsorted
    have holder_ne : ∀ n ∈ older, n ≠ e.walNumber := fun n hn =>
      ((List.pairwise_append.mp (List.pairwise_append.mp hsorted).2.1).2.2 n hn _
        (List.mem_singleton_self _)).ne
    rw [Engine.activeRecords, Engine.activeRecords, hactive, holder, List.flatMap_append,
      List.flatMap_append, List.flatMap_singleton, List.flatMap_singleton,
      hkept _ hl.walNumber_mem, if_pos rfl, List.append_assoc]
    congr 1
    refine List.flatMap_congr fun n hn => hsame n ?_ (holder_ne n hn)
    rw [Engine.liveLogs, holder]
    exact List.mem_append_right _ (List.mem_append_left _ hn)

/-- The records of the current log are at the end of the active ones. -/
theorem Logs.appended_sub (hl : Logs dir e) {v : Entry} (hv : v ∈ e.wal.appended) :
    v ∈ e.activeRecords dir := by
  obtain ⟨older, holder⟩ := hl.current
  rw [Engine.activeRecords, holder, List.flatMap_append, List.flatMap_singleton,
    hl.recordsOf_open (mem_openLogFiles.mpr (Or.inr rfl) : (e.walNumber, e.wal) ∈ _)]
  exact List.mem_append_right _ (List.mem_append_right _ hv)

theorem encodedBy_grows (hwal : Shared.Grows e.wal e'.wal) (hnumber : e'.walNumber = e.walNumber) :
    e'.wal.appended = e.wal.appended ++ e.encodedBy e'
      ∧ (e.encodedBy e' = [] ∧ e'.wal.lastSeq = e.wal.lastSeq
        ∨ ∃ x, e.encodedBy e' = [x] ∧ x.seq = e.wal.lastSeq + 1 ∧ e'.wal.lastSeq = x.seq
          ∧ e'.wal.Held x) := by
  unfold Engine.encodedBy
  rw [if_pos hnumber]
  rcases hwal.appended with ⟨happ, hlast⟩ | ⟨x, happ, hseq, hlast, hheld⟩
  · rw [happ, List.drop_length, List.append_nil]
    exact ⟨rfl, Or.inl ⟨rfl, hlast⟩⟩
  · rw [happ, List.drop_left]
    exact ⟨rfl, Or.inr ⟨x, rfl, hseq, hlast, hheld⟩⟩

/-- **A step that moves no mutation** between the logs or the layers.  It may replace the
manifest. -/
theorem Ledger.Holds.advance (hh : l.Holds dir e h) (hl : Logs dir e) {disk : List Entry}
    (hg : RecordsGrow dir e dir' e') (hwal : Shared.Grows e.wal e'.wal)
    (hnumber : e'.walNumber = e.walNumber)
    (hleft : (e'.jobs .flush).logsToRemove = (e.jobs .flush).logsToRemove)
    (hstate : e'.state = e.state) (hsnapshot : e'.snapshot = e.snapshot)
    (hdisk : dir'.Stores disk)
    (hspans : Spans (l.gone ++ e.leaving dir) ((e.segments dir).headD l.current) disk)
    (hsettled : ∀ v ∈ disk, v.seq ≤ e.wal.opened.lastSeq)
    (hjobs : ∀ slot, (e'.jobs slot).Numbered e.snapshot.lastSeq e'.wal.lastSeq
      ((e.segments dir).headD []) slot)
    (hstart : h'.start = h.start) (hinserted : h'.inserted = h.inserted)
    (hsession : h'.session.map Prod.snd = h.session.map Prod.snd ++ e.encodedBy e') :
    Ledger.Holds { l with disk := disk } dir' e' h' := by
  obtain ⟨hleaving, hsegments, hactive⟩ :=
    hg.records hl hleft (by rw [hstate]) (by rw [hstate])
  obtain ⟨happended, hencoded⟩ := encodedBy_grows hwal hnumber
  have hrecords : e'.records dir' = e.records dir ++ e.encodedBy e' := by
    rw [Engine.records_eq, Engine.records_eq, hleaving, hsegments, hactive, ← List.append_assoc]
  -- at most one record is new, with the next number and not yet inserted
  have hnew : ∀ x ∈ e.encodedBy e', e.wal.lastSeq < x.seq ∧ x.seq ≤ e'.wal.lastSeq
      ∧ e'.wal.Held x := by
    intro x hx
    rcases hencoded with ⟨hnil, -⟩ | ⟨y, hy, hseq, hlast, hheld⟩
    · rw [hnil] at hx
      cases hx
    · rw [hy] at hx
      rw [List.mem_singleton.mp hx]
      exact ⟨by omega, hlast.ge, hheld⟩
  exact {
    start := fun key => by rw [hstart, hh.start]
    history := by
      rw [hsession, ← List.append_assoc, hh.history, hrecords, List.append_assoc]
    increasing := by
      rw [hrecords, ← List.append_assoc]
      refine List.pairwise_append.mpr ⟨hh.increasing, ?_, fun v hv x hx => ?_⟩
      · rcases hencoded with ⟨hnil, -⟩ | ⟨y, hy, -⟩
        · rw [hnil]
          exact List.Pairwise.nil
        · rw [hy]
          exact List.pairwise_singleton _ _
      · exact (hh.bounded v hv).trans_lt (hnew x hx).1
    bounded := by
      rw [hrecords, ← List.append_assoc]
      intro v hv
      rcases List.mem_append.mp hv with hv | hv
      · exact (hh.bounded v hv).trans hwal.lastSeq_le
      · exact (hnew v hv).2.1
    suffix := by
      obtain ⟨before, hbefore⟩ := hh.suffix
      exact ⟨before, by rw [happended, hsession, ← hbefore, List.append_assoc]⟩
    inserted := by
      rw [hinserted]
      intro v hv
      obtain ⟨hmem, hreturned⟩ := hh.inserted v hv
      refine ⟨by rw [hsession]; exact List.mem_append_left _ hmem, fun hv' => ?_⟩
      rw [happended] at hv'
      rcases List.mem_append.mp hv' with hv' | hv'
      · exact hwal.returned v (hreturned hv')
      · -- a record of the session is not numbered again
        have hle := hh.bounded v (hh.history ▸ List.mem_append_right _ hmem)
        exact absurd (hnew v hv').1 (not_lt.mpr hle)
    layers := by
      rw [hleaving, hsegments]
      exact hh.layers.congr (by rw [hstate]) (by rw [hstate]) (by rw [hstate])
    current_sub := fun v hv => by
      rw [hactive]
      exact List.mem_append_left _ (hh.current_sub v hv)
    pending := by
      rw [hactive]
      intro v hv
      rcases List.mem_append.mp hv with hv | hv
      · exact (hh.pending v hv).imp_right (hwal.held v)
      · exact Or.inr (hnew v hv).2.2
    older := by rw [hleaving, hsegments, hwal.opened]; exact hh.older
    disk := hdisk
    spans := by rw [hleaving, hsegments]; exact hspans
    settled := fun v hv => by
      rw [hwal.opened]
      rcases List.mem_append.mp hv with hv | hv
      · exact hh.settled v (List.mem_append_left _ hv)
      · exact hsettled v hv
    numbered := by rw [hsnapshot]; exact hh.numbered
    snapshot_le := by rw [hsnapshot]; exact hh.snapshot_le.trans hwal.lastSeq_le
    last := by
      rw [hsegments, hactive, hsnapshot]
      rcases hencoded with ⟨hnil, hlast⟩ | ⟨x, hx, -, hlast, -⟩
      · rw [hnil, List.append_nil, hlast]
        exact hh.last
      · rw [hx]
        exact Or.inr ⟨x, by simp, hlast.symm⟩
    jobs := by rw [hsegments, hsnapshot]; exact hjobs }

theorem Ledger.Holds.distinct (hh : l.Holds dir e h) : Distinct (l.gone ++ e.records dir) :=
  distinct_of_pairwise hh.increasing

theorem Engine.activeRecords_sub {v : Entry} (hv : v ∈ e.activeRecords dir) :
    v ∈ e.records dir := by
  rw [Engine.records_eq]
  exact List.mem_append_right _ hv

/-- What the active memtable takes may be in the oldest segment. -/
theorem Spans.mono {base first first' stored : List Entry} (hs : Spans base first stored)
    (hsub : ∀ v ∈ first, v ∈ first') : Spans base first' stored :=
  ⟨hs.all, fun v hv => (hs.only v hv).imp_right (hsub v)⟩

theorem mem_headD_append {segs : List (List Entry)} {current more : List Entry} :
    ∀ v ∈ segs.headD current, v ∈ segs.headD (current ++ more) := by
  cases segs with
  | nil => exact fun v => List.mem_append_left _
  | cons seg rest => exact fun v hv => hv

/-- The mutation of an append that returned is inserted. -/
theorem Ledger.Holds.insert (hh : l.Holds dir e h) (hl : Logs dir e)
    (hg : RecordsGrow dir e dir e') {t : Thread} {entry : Entry}
    (hthread : e.wal.thread t = .returned entry) (hwal : e.wal.step (t, .resume) = some e'.wal)
    (hnumber : e'.walNumber = e.walNumber) (hsnapshot : e'.snapshot = e.snapshot)
    (hjobs : e'.jobs = e.jobs)
    (hstate : e'.state = { e.state with active := (e.state.active.insert entry).1 })
    (hstart : h'.start = h.start) (hinserted : h'.inserted = h.inserted ++ [entry])
    (hsession : h'.session.map Prod.snd = h.session.map Prod.snd ++ e.encodedBy e') :
    Ledger.Holds { l with current := l.current ++ [entry] } dir e' h' := by
  have hlog := Shared.log_resume hwal
  have hencoded : e.encodedBy e' = [] := by
    rw [Engine.encodedBy, if_pos hnumber, hlog.1, List.drop_length]
  obtain ⟨hleaving, hsegments, hactive⟩ :=
    hg.records hl (by rw [hjobs]) (by rw [hstate]) (by rw [hstate])
  rw [hencoded, List.append_nil] at hactive hsession
  have hrecords : e'.records dir = e.records dir := by
    rw [Engine.records_eq, Engine.records_eq, hleaving, hsegments, hactive]
  have hreturned : entry ∈ e.wal.returned := hl.calm_wal.inv.fact_of_eq hthread
  have happended := (hl.calm_wal.inv.done entry hreturned).1
  have hmem := hl.appended_sub happended
  have hlast : e'.wal.lastSeq = e.wal.lastSeq := by rw [hlog.1]
  have hopened : e'.wal.opened = e.wal.opened := by rw [hlog.1]
  exact {
    start := fun key => by rw [hstart, hh.start]
    history := by rw [hsession, hrecords]; exact hh.history
    increasing := by rw [hrecords]; exact hh.increasing
    bounded := by rw [hrecords, hlast]; exact hh.bounded
    suffix := by rw [hsession, hlog.1]; exact hh.suffix
    inserted := by
      rw [hinserted, hsession, hlog.1, hlog.2]
      intro v hv
      rcases List.mem_append.mp hv with hv | hv
      · exact hh.inserted v hv
      · rw [List.mem_singleton.mp hv]
        exact ⟨hh.suffix.subset happended, fun _ => hreturned⟩
    layers := by
      rw [hleaving, hsegments]
      rw [hstate]
      -- the record is newer than all layers below the active memtable
      refine hh.layers.insert (fun v hv => ?_) fun v hv hseq => ?_
      · exact (hh.older v hv).trans_lt (hl.calm_wal.inv.log.seq_bounds happended).1
      · have hsub : ∀ {u}, u ∈ e.activeRecords dir → u ∈ l.gone ++ e.records dir := fun hu =>
          List.mem_append_right _ (Engine.activeRecords_sub hu)
        exact hh.distinct v (hsub (hh.current_sub v hv)) entry (hsub hmem) hseq
    current_sub := fun v hv => by
      rw [hactive]
      rcases List.mem_append.mp hv with hv | hv
      · exact hh.current_sub v hv
      · rw [List.mem_singleton.mp hv]
        exact hmem
    pending := by
      rw [hactive]
      intro v hv
      rcases hh.pending v hv with hv | hheld
      · exact Or.inl (List.mem_append_left _ hv)
      · rcases Shared.held_resume hwal hthread hheld with rfl | hheld
        · exact Or.inl (List.mem_append_right _ (List.mem_singleton_self _))
        · exact Or.inr hheld
    older := by rw [hleaving, hsegments, hopened]; exact hh.older
    disk := hh.disk
    spans := by
      rw [hleaving, hsegments]
      exact hh.spans.mono mem_headD_append
    settled := by rw [hopened]; exact hh.settled
    numbered := by rw [hsnapshot]; exact hh.numbered
    snapshot_le := by rw [hsnapshot, hlast]; exact hh.snapshot_le
    last := by rw [hsegments, hactive, hsnapshot, hlast]; exact hh.last
    jobs := by rw [hsegments, hsnapshot, hjobs, hlast]; exact hh.jobs }

/-! ### Rotations -/

/-- A task of the flush slot past its writing has a frozen memtable. -/
theorem Files.segments_ne (hi : Files dir e) {snapshotSeq walSeq : ℕ} {first first' : List Entry}
    (hn : (e.jobs .flush).Numbered snapshotSeq walSeq first .flush)
    (h : e.state.frozen ≠ [] → first' = first) :
    (e.jobs .flush).Numbered snapshotSeq walSeq first' .flush := by
  have hok := hi.jobs .flush
  have hne : ∀ {job : Job}, JobOk dir e .flush job → e.state.frozen ≠ [] := by
    intro job hj hnil
    have ht := hj.target
    cases htarget : job.target with
    | flush f =>
      rw [htarget] at ht
      have := ht.1
      rw [hnil] at this
      cases this
    | compact =>
      rw [htarget] at ht
      exact ht
  cases hpc : e.jobs .flush with
  | ready job lastSeq =>
    rw [hpc] at hok hn
    rw [h (hne hok.1)]
    exact hn
  | committing job next phase =>
    rw [hpc] at hok hn
    rw [h (hne hok.1)]
    exact hn
  | idle | planned | writing | unlinking => trivial

/-- **A rotation** makes the active records the newest segment. -/
theorem Ledger.Holds.rotateSwap (hh : l.Holds dir e h) (hl : Logs dir e) (hi : Files dir e)
    (hg : RecordsGrow dir e dir' e') {number : ℕ} {r : Recovered}
    (hrotating : e.rotating = some number)
    (hrecover : recover number (dir.logs.lookup number) e.wal.lastSeq = .ok r)
    (hwal : e'.wal = Shared.new e.config.sync r) (hnumber : e'.walNumber = number)
    (hsnapshot : e'.snapshot = e.snapshot) (hjobs : e'.jobs = e.jobs)
    (hstate : e'.state = { e.state with
      active := Memtable.new, activeLogs := [number]
      frozen := ⟨e.state.active, e.state.activeLogs⟩ :: e.state.frozen })
    (hdisk : dir'.Stores l.disk) (hstart : h'.start = h.start)
    (hinserted : h'.inserted = h.inserted)
    (hsession : h'.session.map Prod.snd = h.session.map Prod.snd ++ e.encodedBy e') :
    Ledger.Holds { l with current := [] } dir' e' h' := by
  obtain ⟨hrecords₀, -, -, hle, -, hlastSeq⟩ := spec_of_recover hrecover
  have hlast : r.lastSeq = e.wal.lastSeq := hlastSeq.resolve_right fun ⟨v, hv, _⟩ => by
    rw [hrecords₀, hl.fresh number hrotating] at hv
    cases hv
  obtain ⟨hlt, -⟩ := hl.lt_rotating hrotating
  have hencoded : e.encodedBy e' = [] :=
    encodedBy_eq_nil (Or.inr (by rw [hnumber]; exact (hlt _ hl.walNumber_mem).ne'))
  have hlive : e'.liveLogs = e.liveLogs ++ [number] := by
    simp only [Engine.liveLogs, hjobs, hstate, List.reverse_cons, List.flatMap_append,
      List.flatMap_cons, List.flatMap_nil, List.append_nil, List.append_assoc]
  have hsame : ∀ n ∈ e.liveLogs, e'.recordsOf dir' n = e.recordsOf dir n := fun n hn => by
    rw [hg.kept n hn (by rw [hlive]; exact List.mem_append_left _ hn), hencoded, ite_self,
      List.append_nil]
  have hnew : e'.recordsOf dir' number = [] :=
    hg.fresh number (by rw [hlive]; simp) fun hn => lt_irrefl _ (hlt _ hn)
  have hleaving : e'.leaving dir' = e.leaving dir := by
    rw [Engine.leaving, Engine.leaving, hjobs]
    exact List.flatMap_congr fun n hn =>
      hsame n (List.mem_append_left _ (List.mem_append_left _ hn))
  have hsegments : e'.segments dir' = e.segments dir ++ [e.activeRecords dir] := by
    rw [Engine.segments, Engine.segments, hstate, List.reverse_cons, List.map_append]
    congr 1
    · refine List.map_congr_left fun f hf => List.flatMap_congr fun n hn => hsame n ?_
      exact List.mem_append_left _ (List.mem_append_right _ (List.mem_flatMap.mpr ⟨f, hf, hn⟩))
    · rw [List.map_singleton, Engine.activeRecords]
      congr 1
      exact List.flatMap_congr fun n hn => hsame n (List.mem_append_right _ hn)
  have hactive : e'.activeRecords dir' = [] := by
    rw [Engine.activeRecords, hstate, List.flatMap_singleton, hnew]
  have hrecords : e'.records dir' = e.records dir := by
    rw [Engine.records_eq, Engine.records_eq, hleaving, hsegments, hactive]
    simp
  -- no thread is between its append and its insert
  have hcurrent : ∀ v, v ∈ e.activeRecords dir ↔ v ∈ l.current := fun v =>
    ⟨fun hv => (hh.pending v hv).resolve_right (hl.calm_wal.not_held
      (fun client => hl.clients client (by rw [hl.rotating (by simp [hrotating])]; simp)) v),
      hh.current_sub v⟩
  have hopened : e'.wal.opened.lastSeq = e.wal.lastSeq := by rw [hwal]; exact hlast
  have hwalLast : e'.wal.lastSeq = e.wal.lastSeq := by rw [hwal]; exact hlast
  have hopened_le : e.wal.opened.lastSeq ≤ e.wal.lastSeq :=
    hl.calm_wal.inv.log.last ▸ Nat.le_add_right _ _
  rw [hencoded, List.append_nil] at hsession
  exact {
    start := fun key => by rw [hstart, hh.start]
    history := by rw [hsession, hrecords]; exact hh.history
    increasing := by rw [hrecords]; exact hh.increasing
    bounded := by rw [hrecords, hwalLast]; exact hh.bounded
    suffix := by rw [hwal]; exact List.nil_suffix
    inserted := by
      rw [hinserted, hsession]
      exact fun v hv => ⟨(hh.inserted v hv).1, fun hv' => by rw [hwal] at hv'; cases hv'⟩
    layers := by
      rw [hleaving, hsegments, hstate]
      exact hh.layers.rotate hcurrent _
    current_sub := fun v hv => by cases hv
    pending := fun v hv => by rw [hactive] at hv; cases hv
    older := by
      rw [hleaving, hsegments, hopened]
      intro v hv
      refine hh.bounded v ?_
      rw [Engine.records_eq]
      simp only [List.flatten_append, List.flatten_cons, List.flatten_nil, List.append_nil,
        List.mem_append] at hv ⊢
      tauto
    disk := hdisk
    spans := by
      rw [hleaving, hsegments]
      refine hh.spans.mono fun v hv => ?_
      cases hsegs : e.segments dir with
      | nil =>
        rw [hsegs] at hv
        exact (hcurrent v).mpr hv
      | cons seg rest =>
        rw [hsegs] at hv
        exact hv
    settled := by rw [hopened]; exact fun v hv => (hh.settled v hv).trans hopened_le
    numbered := by rw [hsnapshot]; exact hh.numbered
    snapshot_le := by rw [hsnapshot, hwalLast]; exact hh.snapshot_le
    last := by
      rw [hsegments, hactive, hsnapshot, hwalLast]
      simpa using hh.last
    jobs := by
      rw [hsegments, hsnapshot, hjobs, hwalLast]
      intro slot
      have hslot := hh.jobs slot
      cases slot with
      | compact => exact hslot.compact _
      | flush =>
        refine hi.segments_ne hslot fun hne => ?_
        cases hsegs : e.segments dir with
        | nil =>
          rw [Engine.segments, List.map_eq_nil_iff, List.reverse_eq_nil_iff] at hsegs
          exact absurd hsegs hne
        | cons seg rest => rfl }

/-! ### Commits -/

/-- What a commit stores: for a flush the oldest segment in addition. -/
theorem Ledger.Holds.published (hh : l.Holds dir e h) (hi : Files dir e) {slot : Slot} {job : Job}
    {next : Snapshot} {phase : CommitPhase} (hpc : e.jobs slot = .committing job next phase) :
    ∃ stored, (∀ v ∈ stored, v.seq ≤ next.lastSeq ∧ v.seq ≤ e.wal.opened.lastSeq)
      ∧ Spans (l.gone ++ e.leaving dir) ((e.segments dir).headD l.current) stored
      ∧ Represents (levelChain (job.target.publish job.outputs e.state).levels) stored
      ∧ ((∃ f seg rest, slot = .flush ∧ job.target = .flush f ∧ e.segments dir = seg :: rest
          ∧ stored = l.gone ++ e.leaving dir ++ seg
          ∧ Layers (job.target.publish job.outputs e.state) stored stored rest l.current)
        ∨ slot = .compact ∧ (∀ f, job.target ≠ .flush f) ∧ stored = l.stored
          ∧ Layers (job.target.publish job.outputs e.state) stored (l.gone ++ e.leaving dir)
            (e.segments dir) l.current) := by
  have hok := hi.jobs slot
  have hnumbered := hh.jobs slot
  rw [hpc] at hok hnumbered
  obtain ⟨hj, hc, -⟩ := hok
  obtain ⟨hsnapshot, -, hfirst⟩ := hnumbered
  have hstored : ∀ v ∈ l.stored, v.seq ≤ next.lastSeq ∧ v.seq ≤ e.wal.opened.lastSeq := fun v hv =>
    ⟨(hh.numbered v hv).trans hsnapshot, hh.settled v (List.mem_append_left _ hv)⟩
  rcases hh.layers.publish hi hpc with ⟨f, seg, rest, htarget, hsegs, hlayers⟩ | ⟨htarget, hlayers⟩
  · obtain ⟨rfl, -⟩ := hj.flush_output hc htarget
    have hseg : ∀ v ∈ seg, v.seq ≤ next.lastSeq ∧ v.seq ≤ e.wal.opened.lastSeq := fun v hv => by
      refine ⟨hfirst rfl v (by rw [hsegs]; exact hv), hh.older v ?_⟩
      rw [hsegs]
      exact List.mem_append_right _ (List.mem_append_left _ hv)
    refine ⟨_, fun v hv => ?_, ?_, hlayers.levels, Or.inl ⟨f, seg, rest, rfl, htarget, hsegs, rfl,
      hlayers⟩⟩
    · rcases List.mem_append.mp hv with hv | hv
      · exact hstored v (hh.layers.spans.all v hv)
      · exact hseg v hv
    · rw [hsegs]
      exact ⟨fun v => List.mem_append_left _, fun v => List.mem_append.mp⟩
  · have hslot : slot = .compact := by
      cases htgt : job.target with
      | flush f => exact absurd htgt (htarget f)
      | compact snapshot plan => exact (hj.merges hc htgt).1
    exact ⟨l.stored, hstored, hh.layers.spans, hlayers.levels,
      Or.inr ⟨hslot, htarget, rfl, hlayers⟩⟩

/-- The manifest a commit writes. -/
theorem Files.stores_next (hi : Files dir e) {slot : Slot} {job : Job} {next : Snapshot}
    {phase : CommitPhase} (hpc : e.jobs slot = .committing job next phase) {stored : List Entry}
    (hrep : Represents (levelChain (job.target.publish job.outputs e.state).levels) stored)
    (hlast : ∀ v ∈ stored, v.seq ≤ next.lastSeq) (hmanifest : dir'.manifest = some (some next))
    (htables : dir'.tables = dir.tables) : dir'.Stores stored :=
  ⟨next, _, Or.inl hmanifest, (hi.published hpc).congr_dir fun _ _ => by rw [htables], hrep, hlast⟩

/-- A commit that is not one of the tasks leaves what the other knows. -/
theorem Ledger.Holds.jobs_setJob (hh : l.Holds dir e h) {slot : Slot} {pc : JobPc}
    (hpc : pc.Numbered e.snapshot.lastSeq e.wal.lastSeq ((e.segments dir).headD []) slot)
    {jobs : Slot → JobPc} (hjobs : jobs = (e.setJob slot pc).jobs) :
    ∀ slot', (jobs slot').Numbered e.snapshot.lastSeq e.wal.lastSeq
      ((e.segments dir).headD []) slot' := by
  intro slot'
  rw [hjobs]
  by_cases heq : slot' = slot
  · subst heq
    rw [Engine.setJob_self]
    exact hpc
  · rw [e.setJob_of_ne pc heq]
    exact hh.jobs slot'

/-- The oldest segment has the records of the oldest frozen memtable's logs. -/
theorem segments_of_getLast {f : Frozen} (hlast : e.state.frozen.getLast? = some f) :
    e.segments dir = f.logs.flatMap (e.recordsOf dir)
      :: e.state.frozen.dropLast.reverse.map fun f => f.logs.flatMap (e.recordsOf dir) := by
  obtain ⟨init, hinit⟩ := List.getLast?_eq_some_iff.mp hlast
  rw [Engine.segments, hinit, List.reverse_append, List.dropLast_concat]
  rfl

/-- **The end of a commit**: the segment of a flush joins what is in tables, and its logs go. -/
theorem Ledger.Holds.publish (hh : l.Holds dir e h) (hi : Files dir e) {slot : Slot} {job : Job}
    {next : Snapshot} (hpc : e.jobs slot = .committing job next .renamed)
    (hs : Engine.JobSide slot e e')
    (hjob : e'.jobs slot = .unlinking job.target job.target.unlinks)
    (hsnapshot : e'.snapshot = next)
    (hstate : e'.state = job.target.publish job.outputs e.state)
    (hstart : h'.start = h.start) (hinserted : h'.inserted = h.inserted)
    (hsession : h'.session.map Prod.snd = h.session.map Prod.snd ++ e.encodedBy e') :
    ∃ l' : Ledger, l'.Holds dir e' h' := by
  have hok := hi.jobs slot
  have hnumbered := hh.jobs slot
  rw [hpc] at hok hnumbered
  obtain ⟨hj, hc, -, -, hmanifest⟩ := hok
  obtain ⟨hle, hle', hfirst⟩ := hnumbered
  have hopen : e'.openLogFiles = e.openLogFiles := by
    rw [Engine.openLogFiles, hs.retired, hs.walNumber, hs.wal]
    rfl
  have hrecordsOf : e'.recordsOf dir = e.recordsOf dir := funext fun n => recordsOf_congr hopen rfl
  have hactive : e'.activeRecords dir = e.activeRecords dir := by
    rw [Engine.activeRecords, Engine.activeRecords, hs.activeLogs, hrecordsOf]
  rw [encodedBy_eq_nil (Or.inl hs.wal), List.append_nil] at hsession
  obtain ⟨stored, hnumbers, -, hrep, hcase⟩ := hh.published hi hpc
  have hdisk : dir.Stores stored :=
    hi.stores_next hpc hrep (fun v hv => (hnumbers v hv).1) (hmanifest rfl) rfl
  have hother : ∀ slot', slot' ≠ slot → (e.jobs slot').isCommitting = false := fun slot' hne =>
    hi.exclusive slot slot' (Ne.symm hne) (by rw [hpc]; rfl)
  refine ⟨{ l with stored := stored, disk := stored }, ?_⟩
  -- what a flush and a compaction do differently
  obtain ⟨hlayers, hparts, hlast, hjobs⟩ : Layers e'.state stored (l.gone ++ e'.leaving dir)
      (e'.segments dir) l.current
      ∧ e'.leaving dir ++ (e'.segments dir).flatten = e.leaving dir ++ (e.segments dir).flatten
      ∧ (e.wal.lastSeq = next.lastSeq
        ∨ ∃ v ∈ (e'.segments dir).flatten ++ e.activeRecords dir, v.seq = e.wal.lastSeq)
      ∧ ∀ slot', (e'.jobs slot').Numbered next.lastSeq e.wal.lastSeq
        ((e'.segments dir).headD []) slot' := by
    rcases hcase with ⟨f, seg, rest, rfl, htarget, hsegs, hstored, hlayers⟩
      | ⟨rfl, htarget, hstored, hlayers⟩
    · obtain ⟨-, hlast, -⟩ := hj.flush_output hc htarget
      have hnone : e.leaving dir = [] := by rw [Engine.leaving, hpc]; rfl
      have hcons : e.segments dir = _ := segments_of_getLast hlast
      rw [hsegs, List.cons.injEq] at hcons
      obtain ⟨hseg, hrest⟩ := hcons
      have hleaving : e'.leaving dir = seg := by
        rw [Engine.leaving, hjob, htarget, hrecordsOf, hseg]
        rfl
      have hsegments : e'.segments dir = rest := by
        rw [Engine.segments, hstate, htarget, hrecordsOf, hrest]
        rfl
      rw [hnone, List.append_nil] at hstored
      rw [hleaving, hsegments, hsegs, hnone, hstate]
      refine ⟨hstored ▸ hlayers, rfl, ?_, fun slot' => ?_⟩
      · rcases hh.last with hlast | ⟨v, hv, hlast⟩
        · exact Or.inl (by omega)
        · rw [hsegs, List.flatten_cons, List.append_assoc] at hv
          rcases List.mem_append.mp hv with hv | hv
          · have := hfirst rfl v (by rw [hsegs]; exact hv)
            exact Or.inl (by omega)
          · exact Or.inr ⟨v, hv, hlast⟩
      · cases slot' with
        | flush =>
          rw [hjob]
          trivial
        | compact =>
          rw [hs.jobs .compact (by simp)]
          exact ((hh.jobs .compact).resnapshot (hother .compact (by simp)) _).compact _
    · have hfrozen : e'.state.frozen = e.state.frozen := by
        rw [hstate]
        cases htgt : job.target with
        | flush f => exact absurd htgt (htarget f)
        | compact => rfl
      have hleaving : e'.leaving dir = e.leaving dir := by
        rw [Engine.leaving, Engine.leaving, hs.jobs .flush (by simp), hrecordsOf]
      have hsegments : e'.segments dir = e.segments dir := by
        rw [Engine.segments, Engine.segments, hfrozen, hrecordsOf]
      rw [hleaving, hsegments, hstate]
      refine ⟨hlayers, rfl, hh.last.imp (fun hlast => by omega) id, fun slot' => ?_⟩
      cases slot' with
      | compact =>
        rw [hjob]
        trivial
      | flush =>
        rw [hs.jobs .flush (by simp)]
        exact (hh.jobs .flush).resnapshot (hother .flush (by simp)) _
  have hrecords : e'.records dir = e.records dir := by
    rw [Engine.records_eq, Engine.records_eq, hparts, hactive]
  exact {
    start := fun key => by rw [hstart, hh.start]
    history := by rw [hsession, hrecords]; exact hh.history
    increasing := by rw [hrecords]; exact hh.increasing
    bounded := by rw [hrecords, hs.wal]; exact hh.bounded
    suffix := by rw [hsession, hs.wal]; exact hh.suffix
    inserted := by rw [hinserted, hsession, hs.wal]; exact hh.inserted
    layers := hlayers
    current_sub := by rw [hactive]; exact hh.current_sub
    pending := by rw [hactive, hs.wal]; exact hh.pending
    older := by
      rw [List.append_assoc, hparts, ← List.append_assoc, hs.wal]
      exact hh.older
    disk := hdisk
    spans := hlayers.spans
    settled := fun v hv => by
      rw [hs.wal]
      exact (hnumbers v ((List.mem_append.mp hv).elim id id)).2
    numbered := by rw [hsnapshot]; exact fun v hv => (hnumbers v hv).1
    snapshot_le := by rw [hsnapshot, hs.wal]; exact hle'
    last := by rw [hactive, hsnapshot, hs.wal]; exact hlast
    jobs := by rw [hsnapshot, hs.wal]; exact hjobs }

/-- The oldest log goes; what it held is in tables. -/
theorem Ledger.Holds.unlinkLog (hh : l.Holds dir e h)
    (hg : RecordsGrow dir e dir' e') {frozen : Frozen} {number : ℕ} {rest : List ℕ}
    (hpc : e.jobs .flush = .unlinking (.flush frozen) (number :: rest))
    (he : e' = e.setJob .flush (.unlinking (.flush frozen) rest))
    (hdisk : dir'.Stores l.disk) (hstart : h'.start = h.start)
    (hinserted : h'.inserted = h.inserted)
    (hsession : h'.session.map Prod.snd = h.session.map Prod.snd ++ e.encodedBy e') :
    Ledger.Holds { l with gone := l.gone ++ e.recordsOf dir number } dir' e' h' := by
  subst he
  have hwal : (e.setJob .flush (.unlinking (.flush frozen) rest)).wal = e.wal := rfl
  have hlive : e.liveLogs
      = number :: (e.setJob .flush (.unlinking (.flush frozen) rest)).liveLogs := by
    simp only [Engine.liveLogs, hpc, Engine.setJob_self]
    rfl
  set e' := e.setJob .flush (.unlinking (.flush frozen) rest) with he'
  have hsame : ∀ n ∈ e'.liveLogs, e'.recordsOf dir' n = e.recordsOf dir n := fun n hn => by
    rw [hg.kept n (by rw [hlive]; exact List.mem_cons_of_mem _ hn) hn,
      encodedBy_eq_nil (Or.inl hwal), ite_self, List.append_nil]
  -- the records of the removed log move from the leaving to those that are gone
  have hleaving : e.leaving dir = e.recordsOf dir number ++ e'.leaving dir' := by
    rw [Engine.leaving, Engine.leaving, hpc, he', Engine.setJob_self]
    change (number :: rest).flatMap _ = _
    rw [List.flatMap_cons]
    congr 1
    refine List.flatMap_congr fun n hn => (hsame n ?_).symm
    rw [Engine.liveLogs, he', Engine.setJob_self]
    exact List.mem_append_left _ (List.mem_append_left _ hn)
  have hsegments : e'.segments dir' = e.segments dir := by
    refine List.map_congr_left fun f hf => List.flatMap_congr fun n hn => hsame n ?_
    exact List.mem_append_left _ (List.mem_append_right _ (List.mem_flatMap.mpr ⟨f, hf, hn⟩))
  have hactive : e'.activeRecords dir' = e.activeRecords dir :=
    List.flatMap_congr fun n hn => hsame n (List.mem_append_right _ hn)
  have hrecords : e.records dir = e.recordsOf dir number ++ e'.records dir' := by
    rw [Engine.records_eq, Engine.records_eq, hleaving, hsegments, hactive]
    simp only [List.append_assoc]
  have hbase : l.gone ++ e.recordsOf dir number ++ e'.leaving dir' = l.gone ++ e.leaving dir := by
    rw [hleaving, List.append_assoc]
  have hall : l.gone ++ e.recordsOf dir number ++ e'.records dir' = l.gone ++ e.records dir := by
    rw [hrecords, List.append_assoc]
  rw [encodedBy_eq_nil (Or.inl hwal), List.append_nil] at hsession
  exact {
    start := fun key => by rw [hstart, hh.start]
    history := by rw [hsession, hall]; exact hh.history
    increasing := by rw [hall]; exact hh.increasing
    bounded := by rw [hall]; exact hh.bounded
    suffix := by rw [hsession]; exact hh.suffix
    inserted := by rw [hinserted, hsession]; exact hh.inserted
    layers := by rw [hbase, hsegments]; exact hh.layers
    current_sub := by rw [hactive]; exact hh.current_sub
    pending := by rw [hactive]; exact hh.pending
    older := by rw [hbase, hsegments]; exact hh.older
    disk := hdisk
    spans := by rw [hbase, hsegments]; exact hh.spans
    settled := hh.settled
    numbered := hh.numbered
    snapshot_le := hh.snapshot_le
    last := by rw [hsegments, hactive]; exact hh.last
    jobs := by
      rw [hsegments]
      exact hh.jobs_setJob (show (JobPc.unlinking (.flush frozen) rest).Numbered _ _ _ _ from
        trivial) rfl }

/-! ### Whole steps -/

/-- **Every orderly step keeps a ledger.** -/
theorem Ledger.Holds.step (hh : l.Holds dir e h) (hl : Logs dir e) (hi : Files dir e)
    (hr : dir.LogsReadable) {action : Action} (ho : e.Orderly action)
    (hm : Engine.Moves dir e action dir' e') :
    ∃ l' : Ledger, l'.Holds dir' e' (h.observe action e e') := by
  have hg := (hl.step hi hr ho hm).2
  have hsession := observe_session h action e e'
  have hdisk : (∀ slot, action ≠ .renameManifest slot) → dir'.Stores l.disk := hh.disk.step hi hm
  have hside : ∀ {slot : Slot}, action.slot = some slot → Engine.JobSide slot e e' := hm.jobSide
  -- a step outside the background tasks
  have hquiet : Shared.Grows e.wal e'.wal → e'.walNumber = e.walNumber → e'.jobs = e.jobs →
      e'.state = e.state → e'.snapshot = e.snapshot → dir'.Stores l.disk →
      (h.observe action e e').inserted = h.inserted →
      ∃ l' : Ledger, l'.Holds dir' e' (h.observe action e e') := by
    intro hwal hnumber hjobs hstate hsnapshot hdisk hinserted
    refine ⟨_, hh.advance hl hg hwal hnumber (by rw [hjobs]) hstate hsnapshot hdisk hh.spans
      (fun v hv => hh.settled v (List.mem_append_right _ hv)) (fun slot => ?_) rfl hinserted
      hsession⟩
    rw [hjobs]
    exact (hh.jobs slot).mono hwal.lastSeq_le
  -- a step of a task that leaves the memory and the manifest
  have htask : ∀ {slot : Slot} {pc : JobPc}, action.slot = some slot →
      e'.jobs = (e.setJob slot pc).jobs → (e.jobs slot).logsToRemove = [] →
      pc.logsToRemove = [] → e'.state = e.state → e'.snapshot = e.snapshot →
      pc.Numbered e.snapshot.lastSeq e.wal.lastSeq ((e.segments dir).headD []) slot →
      ∀ {disk : List Entry}, dir'.Stores disk →
      Spans (l.gone ++ e.leaving dir) ((e.segments dir).headD l.current) disk →
      (∀ v ∈ disk, v.seq ≤ e.wal.opened.lastSeq) →
      (h.observe action e e').inserted = h.inserted →
      ∃ l' : Ledger, l'.Holds dir' e' (h.observe action e e') := by
    intro slot pc hslot hjobs hold hnew hstate hsnapshot hpc disk hdisk hspans hsettled hinserted
    have hs := hside hslot
    refine ⟨_, hh.advance hl hg (hs.wal ▸ Shared.Grows.refl _) hs.walNumber ?_ hstate hsnapshot
      hdisk hspans hsettled (hs.wal ▸ hh.jobs_setJob hpc hjobs) rfl hinserted hsession⟩
    rw [hjobs]
    cases slot with
    | flush => rw [Engine.setJob_self, hnew, hold]
    | compact => rw [e.setJob_of_ne pc (by simp)]
  have hsettled : ∀ v ∈ l.disk, v.seq ≤ e.wal.opened.lastSeq := fun v hv =>
    hh.settled v (List.mem_append_right _ hv)
  cases hm with
  | write _ _ hwal | sync _ _ hwal =>
    exact hquiet (hl.calm_wal.grows rfl (by simp) hwal) rfl rfl rfl rfl (hdisk (by simp)) rfl
  | @wal thread event _ hevent hwal =>
    have hne : event ≠ .resume := by
      rintro rfl
      cases hevent
    exact hquiet (hl.calm_wal.grows ho hne hwal) rfl rfl rfl rfl (hdisk (by simp)) rfl
  | insert hthread hwal =>
    refine ⟨_, hh.insert hl hg hthread hwal rfl rfl rfl rfl rfl ?_ hsession⟩
    simp only [History.observe, hthread]
  | leave | rotateNot | rotate | rotateWrite | oldWal | dropLog | planNot =>
    exact hquiet (Shared.Grows.refl _) rfl rfl rfl rfl (hdisk (by simp)) rfl
  | rotateSwap hrotating hrecover =>
    exact ⟨_, hh.rotateSwap hl hi hg hrotating hrecover rfl rfl rfl rfl rfl (hdisk (by simp)) rfl
      rfl hsession⟩
  | rotateFail => cases ho
  | take hpc | plan hpc | abandon hpc | find hpc | alloc hpc | create hpc | finish hpc | rename hpc
  | openOutput hpc =>
    exact htask rfl rfl (by rw [hpc]; rfl) rfl rfl rfl trivial
      (hdisk (by simp)) hh.spans hsettled rfl
  | @ready slot target outputs hpc =>
    refine htask rfl rfl (by rw [hpc]; rfl) rfl rfl rfl
      ⟨le_rfl, fun _ v hv => hh.bounded v (List.mem_append_right _ ?_)⟩ (hdisk (by simp)) hh.spans
      hsettled rfl
    rw [Engine.records_eq]
    refine List.mem_append_left _ (List.mem_append_right _ ?_)
    cases hsegs : e.segments dir with
    | nil =>
      rw [hsegs] at hv
      cases hv
    | cons seg rest =>
      rw [hsegs] at hv
      exact List.mem_append_left _ hv
  | @lock slot job lastSeq hpc =>
    have hready := hh.jobs slot
    rw [hpc] at hready
    refine htask rfl rfl (by rw [hpc]; rfl) rfl rfl rfl
      ⟨le_max_left _ _, max_le hh.snapshot_le hready.1,
        fun hslot v hv => (hready.2 hslot v hv).trans (le_max_right _ _)⟩
      (hdisk (by simp)) hh.spans hsettled rfl
  | @createManifest slot job next hpc | @writeManifest slot job next hpc =>
    have hnumbered := hh.jobs slot
    rw [hpc] at hnumbered
    exact htask rfl rfl (by rw [hpc]; rfl) rfl rfl rfl hnumbered
      (hdisk (by simp)) hh.spans hsettled rfl
  | @renameManifest slot job next content hpc hcontent =>
    have hnumbered := hh.jobs slot
    have hok := hi.jobs slot
    rw [hpc] at hnumbered hok
    obtain ⟨stored, hnumbers, hspans, hrep, -⟩ := hh.published hi hpc
    obtain rfl : some next = content := Option.some.inj ((hok.2.2.2.1 rfl).symm.trans hcontent)
    exact htask rfl rfl (by rw [hpc]; rfl) rfl rfl rfl hnumbered
      (hi.stores_next hpc hrep (fun v hv => (hnumbers v hv).1) rfl rfl) hspans
      (fun v hv => (hnumbers v hv).2) rfl
  | publish hpc =>
    exact hh.publish hi hpc (hside rfl) (Engine.setJob_self ..) rfl rfl rfl rfl hsession
  | @unlinkLog slot frozen number rest hpc =>
    obtain rfl := hl.eq_flush hpc
    exact ⟨_, hh.unlinkLog hg hpc rfl (hdisk (by simp)) rfl rfl hsession⟩
  | unlinkTable hpc =>
    exact htask rfl rfl (by rw [hpc]; rfl) rfl rfl rfl trivial
      (hdisk (by simp)) hh.spans hsettled rfl
  | @done slot target hpc =>
    refine htask rfl rfl ?_ rfl rfl rfl trivial (hdisk (by simp)) hh.spans hsettled rfl
    rw [hpc]
    cases target <;> rfl
  | @fail slot =>
    refine htask rfl rfl ?_ rfl rfl rfl trivial (hdisk (by simp)) hh.spans hsettled rfl
    cases slot with
    | flush => exact ho
    | compact => exact hl.compacts

end

end Lsmkv
