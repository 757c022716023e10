import Lsmkv.Engine.Consistent
import Lsmkv.Engine.Ledger

/-!
# Sequence numbers never go back

The counter is in the memory of the current log.  A rotation hands it to the next log, a commit
writes it into the manifest, and `Engine::open` takes the highest of what the manifest and the
records of the logs say.  `Sequenced` bounds everything the store holds by it, in every run in which
no operation on a log fails, also when a kill loses the buffer of a log: what is lost is not held
any more.
-/

namespace Lsmkv

open Wal

/-- No entry of the tables is numbered past `n`. -/
def TablesBelow (levels : List (List Table)) (n : ℕ) : Prop :=
  ∀ i, ∀ t ∈ levelAt levels i, ∀ v ∈ t.table.run.entries, v.seq ≤ n

/-- The last sequence number of the manifest covers the tables it names. -/
def Dir.Covered (dir : Dir) : Prop :=
  ∃ snapshot levels, dir.Loads snapshot ∧ Arranged dir levels snapshot.files
    ∧ TablesBelow levels snapshot.lastSeq

/-- The entries of the oldest frozen memtable. -/
def Engine.oldest (e : Engine) : List Entry :=
  (e.state.frozen.getLast?.map fun f => f.memtable.run.entries).getD []

/-- The last sequence number is past everything a store holds. -/
structure Sequenced (dir : Dir) (e : Engine) : Prop where
  records : ∀ n ∈ e.liveLogs, ∀ v ∈ e.recordsOf dir n, v.seq ≤ e.wal.lastSeq
  active : ∀ v ∈ e.state.active.run.entries, v.seq ≤ e.wal.lastSeq
  frozen : ∀ f ∈ e.state.frozen, ∀ v ∈ f.memtable.run.entries, v.seq ≤ e.wal.lastSeq
  tables : TablesBelow e.state.levels e.snapshot.lastSeq
  snapshot : e.snapshot.lastSeq ≤ e.wal.lastSeq
  covered : dir.Covered
  manifest : ∀ snapshot, dir.Loads snapshot → snapshot.lastSeq ≤ e.wal.lastSeq
  jobs : ∀ slot, (e.jobs slot).Numbered e.snapshot.lastSeq e.wal.lastSeq e.oldest slot

section

variable {dir dir' : Dir} {e e' : Engine}

theorem TablesBelow.mono {levels : List (List Table)} {m n : ℕ} (h : TablesBelow levels m)
    (hle : m ≤ n) : TablesBelow levels n := fun i t ht v hv => (h i t ht v hv).trans hle

theorem Dir.empty_covered : Dir.empty.Covered :=
  ⟨Snapshot.default, [[]], Or.inr ⟨rfl, rfl⟩, arranged_nil _, fun i t ht => by cases i <;> cases ht⟩

theorem Dir.Covered.congr (hc : dir.Covered) (hmanifest : dir'.manifest = dir.manifest)
    (htables : ∀ snapshot, dir.Loads snapshot →
      ∀ f ∈ snapshot.files, dir'.tables.lookup f.number = dir.tables.lookup f.number) :
    dir'.Covered := by
  obtain ⟨snapshot, levels, hl, harr, hbelow⟩ := hc
  exact ⟨snapshot, levels, (Dir.Loads.congr hmanifest).mpr hl, harr.congr_dir (htables snapshot hl),
    hbelow⟩

/-- An entry of a table the manifest names. -/
theorem Dir.Covered.le (hc : dir.Covered) {snapshot : Snapshot} (hl : dir.Loads snapshot)
    {f : FileMeta} (hf : f ∈ snapshot.files) {table : SsTable}
    (htable : openTable dir f.number = .ok table) {v : Entry} (hv : v ∈ table.run.entries) :
    v.seq ≤ snapshot.lastSeq := by
  obtain ⟨snapshot', levels, hl', harr, hbelow⟩ := hc
  obtain rfl := hl'.unique hl
  obtain ⟨t, ht, rfl⟩ := harr.exists_table hf
  rw [openTable, harr.stored _ t ht] at htable
  exact hbelow _ t ht v (Except.ok.inj htable ▸ hv)

/-! ### Commits -/

/-- What a commit publishes is covered by the number it stores. -/
theorem Sequenced.published (hs : Sequenced dir e) (hi : Files dir e) {slot : Slot} {job : Job}
    {next : Snapshot} {phase : CommitPhase} (hpc : e.jobs slot = .committing job next phase) :
    TablesBelow (job.target.publish job.outputs e.state).levels next.lastSeq := by
  have hok := hi.jobs slot
  have hnumbered := hs.jobs slot
  rw [hpc] at hok hnumbered
  obtain ⟨hj, hc, -⟩ := hok
  obtain ⟨hle, -, hfirst⟩ := hnumbered
  have hold := hs.tables.mono hle
  -- a table of the new levels is an output or was there before
  have houtputs : ∀ t ∈ job.outputs, ∀ v ∈ t.table.run.entries, v.seq ≤ next.lastSeq := by
    intro t ht v hv
    cases htarget : job.target with
    | flush f =>
      obtain ⟨rfl, hlast, u, hu, hrun⟩ := hj.flush_output hc htarget
      rw [hu, List.mem_singleton] at ht
      subst ht
      refine hfirst rfl v ?_
      rw [Engine.oldest, hlast, Option.map_some, Option.getD_some, ← hrun]
      exact hv
    | compact snapshot plan =>
      obtain ⟨-, hplanned, hmerges⟩ := hj.merges hc htarget
      obtain ⟨u, hu, hmem⟩ := hmerges.entry_mem ht hv
      obtain ⟨i, t', ht', -, rfl⟩ := (hplanned.mem_inputTables hi.arranged).mp hu
      exact hold i t' ht' v hmem
  intro i t ht
  cases htarget : job.target with
  | flush f =>
    rw [htarget] at ht
    change t ∈ levelAt (e.state.levels.modify 0 (job.outputs ++ ·)) i at ht
    rw [levelAt_modify] at ht
    split_ifs at ht
    · rcases List.mem_append.mp ht with ht | ht
      · exact houtputs t ht
      · exact hold i t ht
    · exact hold i t ht
  | compact snapshot plan =>
    rw [htarget] at ht
    change t ∈ levelAt ((e.state.remove plan.inputNumbers).insert plan.outputLevel
      job.outputs).levels i at ht
    by_cases hlevel : i = plan.outputLevel
    · subst hlevel
      rw [levelAt_insert_self, List.mem_insertionSort, List.mem_append, levelAt_remove] at ht
      rcases ht with ht | ht
      · exact hold _ t (List.mem_of_mem_filter ht)
      · exact houtputs t ht
    · rw [levelAt_insert_of_ne _ _ hlevel, levelAt_remove] at ht
      exact hold i t (List.mem_of_mem_filter ht)

/-! ### The counter -/

/-- **Every step moves the counter on**: it does not go back, and the record a step encodes gets a
number past it. -/
theorem Logs.lastSeq_step (hl : Logs dir e) {action : Action} (ho : e.Orderly action)
    (hm : Engine.Moves dir e action dir' e') : e.wal.lastSeq ≤ e'.wal.lastSeq
      ∧ ∀ v ∈ e.encodedBy e', e.wal.lastSeq < v.seq ∧ v.seq ≤ e'.wal.lastSeq := by
  have hsame : e'.wal = e.wal → e.wal.lastSeq ≤ e'.wal.lastSeq
      ∧ ∀ v ∈ e.encodedBy e', e.wal.lastSeq < v.seq ∧ v.seq ≤ e'.wal.lastSeq := fun hwal => by
    rw [encodedBy_eq_nil (Or.inl hwal), hwal]
    exact ⟨le_rfl, fun v hv => nomatch hv⟩
  have hgrows : Shared.Grows e.wal e'.wal → e'.walNumber = e.walNumber →
      e.wal.lastSeq ≤ e'.wal.lastSeq
        ∧ ∀ v ∈ e.encodedBy e', e.wal.lastSeq < v.seq ∧ v.seq ≤ e'.wal.lastSeq := by
    intro hwal hnumber
    refine ⟨hwal.lastSeq_le, fun v hv => ?_⟩
    rcases (encodedBy_grows hwal hnumber).2 with ⟨hnil, -⟩ | ⟨x, hx, hseq, hlast, -⟩
    · rw [hnil] at hv
      cases hv
    · rw [hx] at hv
      rw [List.mem_singleton.mp hv]
      omega
  cases hm with
  | write _ _ hwal | sync _ _ hwal => exact hgrows (hl.calm_wal.grows rfl (by simp) hwal) rfl
  | @wal thread event _ hevent hwal =>
    have hne : event ≠ .resume := by
      rintro rfl
      cases hevent
    exact hgrows (hl.calm_wal.grows ho hne hwal) rfl
  | insert _ hwal =>
    have hlog := (Shared.log_resume hwal).1
    refine ⟨by rw [hlog], fun v hv => ?_⟩
    rw [Engine.encodedBy, if_pos rfl, hlog, List.drop_length] at hv
    cases hv
  | rotateSwap hrotating hrecover =>
    refine ⟨(spec_of_recover hrecover).2.2.2.1, fun v hv => ?_⟩
    have hne := (hl.lt_rotating hrotating).1 _ hl.walNumber_mem
    rw [encodedBy_eq_nil (Or.inr hne.ne')] at hv
    cases hv
  | _ => exact hsame rfl

/-- The records of the logs after a step. -/
theorem Sequenced.records_step (hs : Sequenced dir e) (hg : RecordsGrow dir e dir' e')
    (hlast : e.wal.lastSeq ≤ e'.wal.lastSeq
      ∧ ∀ v ∈ e.encodedBy e', e.wal.lastSeq < v.seq ∧ v.seq ≤ e'.wal.lastSeq) :
    ∀ n ∈ e'.liveLogs, ∀ v ∈ e'.recordsOf dir' n, v.seq ≤ e'.wal.lastSeq := by
  intro n hn v hv
  by_cases hold : n ∈ e.liveLogs
  · rw [hg.kept n hold hn] at hv
    rcases List.mem_append.mp hv with hv | hv
    · exact (hs.records n hold v hv).trans hlast.1
    · split_ifs at hv
      · exact (hlast.2 v hv).2
      · cases hv
  · rw [hg.fresh n hn hold] at hv
    cases hv

/-- A task moves on. -/
theorem Sequenced.jobs_setJob (hs : Sequenced dir e) {slot : Slot} {pc : JobPc}
    (hpc : pc.Numbered e.snapshot.lastSeq e.wal.lastSeq e.oldest slot) (slot' : Slot) :
    ((e.setJob slot pc).jobs slot').Numbered e.snapshot.lastSeq e.wal.lastSeq e.oldest slot' := by
  by_cases heq : slot' = slot
  · subst heq
    rw [Engine.setJob_self]
    exact hpc
  · rw [e.setJob_of_ne pc heq]
    exact hs.jobs slot'

/-- The end of a commit. -/
theorem Sequenced.publish (hs : Sequenced dir e) (hi : Files dir e) {slot : Slot} {job : Job}
    {next : Snapshot} (hpc : e.jobs slot = .committing job next .renamed)
    (hside : Engine.JobSide slot e e')
    (hjob : e'.jobs slot = .unlinking job.target job.target.unlinks)
    (hsnapshot : e'.snapshot = next)
    (hstate : e'.state = job.target.publish job.outputs e.state)
    (hrecords : ∀ n ∈ e'.liveLogs, ∀ v ∈ e'.recordsOf dir n, v.seq ≤ e'.wal.lastSeq) :
    Sequenced dir e' := by
  have hok := hi.jobs slot
  have hnumbered := hs.jobs slot
  rw [hpc] at hok hnumbered
  have hfrozen : ∀ f ∈ e'.state.frozen, f ∈ e.state.frozen := by
    rw [hstate]
    exact fun f => Target.mem_frozen_of_publish
  have hother : ∀ slot', slot' ≠ slot → (e.jobs slot').isCommitting = false := fun slot' hne =>
    hi.exclusive slot slot' (Ne.symm hne) (by rw [hpc]; rfl)
  exact {
    records := hrecords
    active := by rw [hside.active, hside.wal]; exact hs.active
    frozen := fun f hf => by rw [hside.wal]; exact hs.frozen f (hfrozen f hf)
    tables := by rw [hsnapshot, hstate]; exact hs.published hi hpc
    snapshot := by rw [hsnapshot, hside.wal]; exact hnumbered.2.1
    covered := hs.covered
    manifest := by rw [hside.wal]; exact hs.manifest
    jobs := fun slot' => by
      by_cases heq : slot' = slot
      · subst heq
        rw [hjob]
        trivial
      · rw [hside.jobs slot' heq, hsnapshot, hside.wal]
        have hkept := (hs.jobs slot').resnapshot (hother slot' heq) next.lastSeq
        cases slot' with
        | compact => exact hkept.compact _
        | flush =>
          -- a compaction publishes here, which leaves the frozen memtables
          have hslot : slot = .compact := by
            cases slot with
            | flush => exact absurd rfl heq
            | compact => rfl
          subst hslot
          refine hi.segments_ne hkept fun _ => ?_
          cases htarget : job.target with
          | flush f => cases (hok.1.flush_output hok.2.1 htarget).1
          | compact snapshot plan =>
            rw [Engine.oldest, Engine.oldest, hstate, htarget]
            rfl }

/-! ### Whole steps -/

/-- **Every orderly step keeps the counter ahead.** -/
theorem Sequenced.step (hs : Sequenced dir e) (hl : Logs dir e) (hi : Files dir e)
    (hr : dir.LogsReadable) {action : Action} (ho : e.Orderly action)
    (hm : Engine.Moves dir e action dir' e') : Sequenced dir' e' := by
  have hlast := hl.lastSeq_step ho hm
  have hrecords := hs.records_step (hl.step hi hr ho hm).2 hlast
  have hle := hlast.1
  have hnamed := hm.named hi
  have hside : ∀ {slot : Slot}, action.slot = some slot → Engine.JobSide slot e e' := hm.jobSide
  -- a step that leaves the tables in memory and the manifest
  have hkeep : (∀ slot, action ≠ .renameManifest slot) → e'.snapshot = e.snapshot →
      e'.state.levels = e.state.levels →
      (∀ v ∈ e'.state.active.run.entries, v.seq ≤ e'.wal.lastSeq) →
      (∀ f ∈ e'.state.frozen, ∀ v ∈ f.memtable.run.entries, v.seq ≤ e'.wal.lastSeq) →
      (∀ slot, (e'.jobs slot).Numbered e.snapshot.lastSeq e'.wal.lastSeq e'.oldest slot) →
      Sequenced dir' e' := by
    intro haction hsnapshot hlevels hactive hfrozen hjobs
    obtain ⟨hmanifest, htables⟩ := hnamed haction
    exact {
      records := hrecords
      active := hactive
      frozen := hfrozen
      tables := by rw [hlevels, hsnapshot]; exact hs.tables
      snapshot := by rw [hsnapshot]; exact hs.snapshot.trans hle
      covered := hs.covered.congr hmanifest htables
      manifest :=
        fun snapshot h => (hs.manifest snapshot ((Dir.Loads.congr hmanifest).mp h)).trans hle
      jobs := by rw [hsnapshot]; exact hjobs }
  have hactive : ∀ v ∈ e.state.active.run.entries, v.seq ≤ e'.wal.lastSeq := fun v hv =>
    (hs.active v hv).trans hle
  have hfrozen : ∀ f ∈ e.state.frozen, ∀ v ∈ f.memtable.run.entries, v.seq ≤ e'.wal.lastSeq :=
    fun f hf v hv => (hs.frozen f hf v hv).trans hle
  have hjobs : ∀ slot, (e.jobs slot).Numbered e.snapshot.lastSeq e'.wal.lastSeq e.oldest slot :=
    fun slot => (hs.jobs slot).mono hle
  cases hm with
  | write | sync | wal | leave | rotateNot | rotate | rotateWrite | rotateFail | oldWal | dropLog
  | planNot => exact hkeep (by simp) rfl rfl hactive hfrozen hjobs
  | @insert client entry wal hthread hwal =>
    refine hkeep (by simp) rfl rfl (fun v hv => ?_) hfrozen hjobs
    rcases Memtable.mem_insert hv with rfl | hv
    · have hreturned : v ∈ e.wal.returned := hl.calm_wal.inv.fact_of_eq hthread
      have happended := (hl.calm_wal.inv.done v hreturned).1
      exact (hl.calm_wal.inv.log.seq_bounds happended).2.trans hle
    · exact hactive v hv
  | @rotateSwap number r hrotating hrecover =>
    refine hkeep (by simp) rfl rfl (fun v hv => nomatch hv) (fun f hf => ?_) fun slot => ?_
    · rcases List.mem_cons.mp hf with rfl | hf
      · exact hactive
      · exact hfrozen f hf
    · cases slot with
      | compact => exact (hjobs .compact).compact _
      | flush =>
        refine hi.segments_ne (hjobs .flush) fun hne => ?_
        rw [Engine.oldest, Engine.oldest, List.getLast?_cons_of_ne_nil hne]
  | take | plan | abandon | find | alloc | create | finish | rename | openOutput | unlinkLog
  | unlinkTable | done | fail =>
    exact hkeep (by simp) rfl rfl hactive hfrozen (hs.jobs_setJob trivial)
  | ready =>
    refine hkeep (by simp) rfl rfl hactive hfrozen (hs.jobs_setJob ⟨le_rfl, fun _ v hv => ?_⟩)
    cases hlast : e.state.frozen.getLast? with
    | none =>
      rw [Engine.oldest, hlast] at hv
      cases hv
    | some f =>
      rw [Engine.oldest, hlast] at hv
      exact hs.frozen f (List.mem_of_getLast? hlast) v hv
  | @lock slot job lastSeq hpc =>
    have hready := hs.jobs slot
    rw [hpc] at hready
    exact hkeep (by simp) rfl rfl hactive hfrozen (hs.jobs_setJob ⟨le_max_left _ _,
      max_le hs.snapshot hready.1, fun hslot v hv => (hready.2 hslot v hv).trans
        (le_max_right _ _)⟩)
  | @createManifest slot job next hpc | @writeManifest slot job next hpc =>
    have hnumbered := hs.jobs slot
    rw [hpc] at hnumbered
    exact hkeep (by simp) rfl rfl hactive hfrozen (hs.jobs_setJob hnumbered)
  | @renameManifest slot job next content hpc hcontent =>
    have hnumbered := hs.jobs slot
    have hok := hi.jobs slot
    rw [hpc] at hnumbered hok
    obtain rfl : some next = content := Option.some.inj ((hok.2.2.2.1 rfl).symm.trans hcontent)
    exact { hs with
      records := hrecords
      covered := ⟨next, _, Or.inl rfl, (hi.published hpc).congr_dir fun _ _ => rfl,
        hs.published hi hpc⟩
      manifest := fun snapshot h => by
        obtain rfl := h.unique (Or.inl rfl)
        exact hnumbered.2.1
      jobs := hs.jobs_setJob hnumbered }
  | publish hpc =>
    exact hs.publish hi hpc (hside rfl) (Engine.setJob_self ..) rfl rfl hrecords

/-- `Engine::open` starts the counter past what the manifest and the logs hold. -/
theorem OpenedFrom.sequenced {config : Config} (h : OpenedFrom dir config dir' e)
    (hc : dir.Covered) : Sequenced dir' e := by
  obtain ⟨r, heq, -, -, hbase, hall, -⟩ := h.fresh
  have hwal : e.wal.lastSeq = r.lastSeq := by rw [heq]; rfl
  obtain ⟨snapshot, levels, hl, harr, hbelow⟩ := hc
  obtain rfl := hl.unique h.loads
  have harr' := harr.congr_dir h.kept.tables
  exact {
    records := fun n hn v hv => by
      rw [hwal]
      refine hall v ?_
      rw [← h.logs.2]
      exact List.mem_flatMap.mpr ⟨n, hn, hv⟩
    active := fun v hv => by
      rw [hwal]
      rw [h.active] at hv
      exact hall v (Memtable.mem_of_mem_ofRecords hv)
    frozen := fun f hf => by rw [heq] at hf; cases hf
    tables := fun i t ht => hbelow i t (by rwa [h.arranged.levelAt_eq harr'] at ht)
    snapshot := by rw [hwal]; exact hbase
    covered := ⟨_, levels, h.kept.loads.mpr hl, harr', hbelow⟩
    manifest := fun snapshot hs => by
      rw [hwal, (h.kept.loads.mp hs).unique hl]
      exact hbase
    jobs := fun slot => by rw [heq]; trivial }

end

/-! ### Whole runs -/

namespace World

/-- The counter of an open store is ahead of everything, and the manifest of one that is not open
covers its tables. -/
def Sequenced (w : World) : Prop :=
  match w.engine with
  | none => w.dir.Covered
  | some e => Logs w.dir e ∧ Lsmkv.Sequenced w.dir e

/-- Whether no operation on a log of the open store fails in a step, and no replaced log stays
behind.  The process may be killed under every policy. -/
def LogsSucceed (w : World) (action : Action) : Prop := ∀ e, w.engine = some e → e.Orderly action

theorem logsSucceed_of_faultless (w : World) (action : Action) (h : action.faultless = true) :
    w.LogsSucceed action := by
  intro e _
  cases action with
  | fail => cases h
  | _ => exact h

theorem Sequenced.step {w w' : World} {action : Action} (hc : w.Consistent) (hs : w.Sequenced)
    (hok : w.LogsSucceed action) (hm : w.Moves action w') : w'.Sequenced := by
  unfold Sequenced Consistent at *
  cases hm with
  | @engine e e' action dir' hengine hmoves =>
    rw [hengine] at hs hc
    obtain ⟨hl, hs⟩ := hs
    have ho := hok e hengine
    exact ⟨(hl.step hc.1 hc.2.readable ho hmoves).1, hs.step hl hc.1 hc.2.readable ho hmoves⟩
  | @kill e cut hengine =>
    rw [hengine] at hs
    refine hs.2.covered.congr ?_ fun _ _ _ _ => ?_
    · change (e.killed w.dir cut).manifest = _
      rw [killed_eq]
    · change (e.killed w.dir cut).tables.lookup _ = _
      rw [killed_eq]
  | @close e fault hengine hrest =>
    rw [hengine] at hs
    refine hs.2.covered.congr ?_ fun _ _ _ _ => ?_
    · change (e.dropped w.dir fault).manifest = _
      rw [dropped_eq]
    · change (e.dropped w.dir fault).tables.lookup _ = _
      rw [dropped_eq]
  | openStore hengine hopen =>
    rw [hengine] at hs hc
    have hopened := openedFrom hc.1 hc.2 hopen
    exact ⟨hopened.logs.1, hopened.sequenced hs⟩
  | openKilled hengine =>
    rw [hengine] at hs hc
    obtain ⟨snapshot, hl, hkept⟩ := openKilled_kept hc.1 hc.2 _ _
    exact hs.congr hkept.manifest fun _ hl' => hl.unique hl' ▸ hkept.tables

theorem sequenced_of_reachable {w : World} {ok : World → Action → Prop}
    (hok : ∀ w action, ok w action → w.LogsSucceed action)
    (hw : Reachable step ok (· = initial) w) : w.Sequenced := by
  refine hw.invariant ?_ fun w action _ hreach hs ha h => ?_
  · rintro _ rfl
    exact Dir.empty_covered
  · exact hs.step (consistent_of_reachable hreach) (hok w action ha) (moves_of_step h)

end World

/-- What a log file holds is among the records of that log. -/
theorem Logs.mem_recordsOf {dir : Dir} {e : Engine} (hl : Logs dir e) {n : ℕ} {content : Bytes}
    (hlookup : dir.logs.lookup n = some content) {v : Entry} (hv : v ∈ contents content) :
    n ∈ e.liveLogs ∧ v ∈ e.recordsOf dir n := by
  have hin : n ∈ dir.logs := AList.lookup_isSome.mp (by rw [hlookup]; rfl)
  have hlive : n ∈ e.liveLogs := by
    refine (List.mem_append.mp (hl.known n hin)).resolve_right fun hrotating => ?_
    have hfresh := hl.fresh n (Option.mem_toList.mp hrotating)
    rw [hlookup, Option.getD_some] at hfresh
    rw [hfresh] at hv
    cases hv
  refine ⟨hlive, ?_⟩
  by_cases hopen : ∃ p ∈ e.openLogFiles, p.1 = n
  · obtain ⟨p, hp, rfl⟩ := hopen
    rw [hl.files p hp hin] at hlookup
    obtain rfl := Option.some.inj hlookup
    obtain ⟨j, -, hcut⟩ := (hl.calm p hp).1.contents_cut 0
    rw [List.take_zero, List.append_nil] at hcut
    rw [hl.recordsOf_open hp]
    rw [hcut] at hv
    exact (List.mem_append.mp hv).elim (List.mem_append_left _)
      fun hv => List.mem_append_right _ (List.mem_of_mem_take hv)
  · rw [recordsOf_closed fun p hp heq => hopen ⟨p, hp, heq⟩, hlookup]
    exact hv

/-- **Sequence numbers never go back.**  In every state of every run in which no operation on a log
fails and every replaced log is removed, while any other operation of a flush or a compaction may
fail, across any number of drops, kills and reopens, the last sequence number is at least that of
every entry of the active memtable, of a frozen memtable, of a log on disk and of a table the
manifest on disk names; and the next mutation gets a higher one. -/
theorem le_lastSequence {w : World}
    (hw : Reachable World.step World.LogsSucceed (· = World.initial) w)
    {e : Engine} (he : w.engine = some e) :
    (∀ v ∈ e.state.active.run.entries, v.seq ≤ e.lastSequence)
      ∧ (∀ f ∈ e.state.frozen, ∀ v ∈ f.memtable.run.entries, v.seq ≤ e.lastSequence)
      ∧ (∀ n content, w.dir.logs.lookup n = some content →
        ∀ v ∈ contents content, v.seq ≤ e.lastSequence)
      ∧ (∀ snapshot, w.dir.manifest = some (some snapshot) → ∀ f ∈ snapshot.files,
        ∀ table, openTable w.dir f.number = .ok table →
          ∀ v ∈ table.run.entries, v.seq ≤ e.lastSequence)
      ∧ ∀ action w', w.LogsSucceed action → w.step action = some w' →
        ∀ p ∈ w'.history.session.drop w.history.session.length, e.lastSequence < p.2.seq := by
  have hsequenced := World.sequenced_of_reachable (fun _ _ => id) hw
  rw [World.Sequenced, he] at hsequenced
  obtain ⟨hl, hs⟩ := hsequenced
  refine ⟨hs.active, hs.frozen, fun n content hlookup v hv => ?_, fun snapshot hmanifest f hf table
    htable v hv => ?_, fun action w' hok hstep p hp => ?_⟩
  · obtain ⟨hlive, hmem⟩ := hl.mem_recordsOf hlookup hv
    exact hs.records n hlive v hmem
  · have hloads : w.dir.Loads snapshot := Or.inl hmanifest
    exact (hs.covered.le hloads hf htable hv).trans (hs.manifest snapshot hloads)
  · cases World.moves_of_step hstep with
    | @engine e₁ e' action dir' hengine hmoves =>
      obtain rfl := Option.some.inj (he.symm.trans hengine)
      have hnew := (hl.lastSeq_step (hok e he) hmoves).2
      have hmem : p.2 ∈ e.encodedBy e' := by
        have := List.mem_map_of_mem (f := Prod.snd) hp
        rwa [List.map_drop, observe_session, List.drop_left' (by simp)] at this
      exact (hnew _ hmem).1
    | kill | close =>
      rw [List.drop_length] at hp
      cases hp
    | openStore hengine => cases he.symm.trans hengine
    | openKilled hengine => cases he.symm.trans hengine

/-- A store whose only record was flushed away, killed and opened again. -/
def flushedAway : List Action :=
  List.flatten [[.openStore ⟨.always, 100, 4, 10⟩], Action.alwaysWrite 1 [1] (some [7]),
    Action.rotateAndTake 1, Action.commit .flush 1,
    [.kill fun _ => 0, .openStore ⟨.always, 100, 4, 10⟩]]

theorem le_lastSequence_flushedAway : ∃ (w : World) (e : Engine) (snapshot : Snapshot),
    w.dir.manifest = some (some snapshot) ∧ snapshot.files.map FileMeta.number = [3]
      ∧ e.state.active.run.entries = [] ∧ e.lastSequence = 1
      ∧ ∀ f ∈ snapshot.files, ∀ table, openTable w.dir f.number = .ok table →
        ∀ v ∈ table.run.entries, v.seq ≤ 1 := by
  obtain ⟨w, e, hw, he, htest⟩ := World.exists_engine_of_run World.LogsSucceed
    World.logsSucceed_of_faultless
    (by decide +kernel : (run World.step (fun _ action => action.faultless) World.initial
      flushedAway).map (fun w => w.engine.any fun e => w.dir.manifest.join.any fun snapshot =>
        snapshot.files.map FileMeta.number = [3] && e.state.active.run.entries = []
          && e.lastSequence = 1) = some true)
  obtain ⟨snapshot, hjoin, htest⟩ := (Option.any_eq_true _ _).mp htest
  have hmanifest := Option.join_eq_some_iff.mp hjoin
  simp only [Bool.and_eq_true, decide_eq_true_iff] at htest
  obtain ⟨⟨hfiles, hactive⟩, hlast⟩ := htest
  refine ⟨w, e, snapshot, hmanifest, hfiles, hactive, hlast, fun f hf table htable v hv => ?_⟩
  rw [← hlast]
  exact (le_lastSequence hw he).2.2.2.1 snapshot hmanifest f hf table htable v hv

end Lsmkv
