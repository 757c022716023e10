import Lsmkv.Engine.Open
import Lsmkv.Wal.GroupCommit

/-!
# The directory in every run

`World.Consistent` is what a store keeps through every run, open or not: the file set of `Files`,
and logs that can be replayed.  It holds whatever operations fail and wherever the process is
killed (`consistent_of_reachable`), because a log is only ever appended to behind its header and
a manifest only ever names tables that are complete.

`reachable_levels` and `reachable_manifest` read off it what the levels in memory and the manifest
on disk look like in every state.
-/

namespace Lsmkv

open State

/-! ### The log files -/

/-- The files of the logs can be replayed, and the open ones start with their header. -/
structure LogFiles (dir : Dir) (e : Engine) : Prop where
  readable : dir.LogsReadable
  headers : ∀ p ∈ e.openLogFiles, Wal.fileHeader <+: p.2.file

theorem Wal.Log.file_writePending (l : Wal.Log) (fault : Option ℕ) :
    l.file <+: (l.writePending fault).1.file := by
  unfold Wal.Log.writePending
  split_ifs
  · exact List.prefix_rfl
  · cases fault with
    | none => exact List.prefix_append _ _
    | some n => exact List.prefix_append _ _

/-- The file of a log only grows. -/
theorem Wal.Shared.file_step {s s' : Wal.Shared} {label : Wal.Thread × Wal.Event}
    (h : s.step label = some s') : s.file <+: s'.file := by
  rcases Wal.Shared.step_log h with hlog | ⟨e, -, -, hlog⟩ | ⟨fault, -, hlog⟩
  · rw [hlog]
  · rw [hlog]
    exact List.prefix_rfl
  · rw [hlog]
    exact s.toLog.file_writePending fault

theorem Dir.LogsReadable.insert {dir : Dir} (h : dir.LogsReadable) {number : ℕ} {content : Bytes}
    (hcontent : Wal.Readable content) :
    Dir.LogsReadable { dir with logs := dir.logs.insert number content } := by
  intro n bytes hn
  change (dir.logs.insert number content).lookup n = some bytes at hn
  by_cases hne : n = number
  · subst hne
    rw [AList.lookup_insert] at hn
    exact Option.some.inj hn ▸ hcontent
  · rw [AList.lookup_insert_ne hne] at hn
    exact h n bytes hn

theorem Dir.LogsReadable.writeLog {dir : Dir} (h : dir.LogsReadable) (number : ℕ) {content : Bytes}
    (hcontent : Wal.Readable content) : (dir.writeLog number content).LogsReadable := by
  unfold Dir.writeLog
  split_ifs
  · exact h.insert hcontent
  · exact h

section

variable {dir dir' : Dir} {e e' : Engine}

theorem LogFiles.current (hi : LogFiles dir e) : Wal.fileHeader <+: e.wal.file :=
  hi.headers (e.walNumber, e.wal) (List.mem_append_right _ (List.mem_singleton_self _))

theorem LogFiles.old (hi : LogFiles dir e) {p : ℕ × Wal.Shared} (hp : p ∈ e.retired) :
    Wal.fileHeader <+: p.2.file := hi.headers p (List.mem_append_left _ hp)

theorem logFiles_iff : LogFiles dir e ↔ dir.LogsReadable ∧ Wal.fileHeader <+: e.wal.file
    ∧ ∀ p ∈ e.retired, Wal.fileHeader <+: p.2.file := by
  constructor
  · exact fun hi => ⟨hi.readable, hi.current, fun p hp => hi.old hp⟩
  · rintro ⟨hreadable, hwal, hretired⟩
    refine ⟨hreadable, fun p hp => ?_⟩
    rcases List.mem_append.mp hp with hp | hp
    · exact hretired p hp
    · rw [List.mem_singleton.mp hp]
      exact hwal

/-- **Every step keeps the logs readable.** -/
theorem LogFiles.step (hi : LogFiles dir e) {action : Action}
    (h : Engine.Moves dir e action dir' e') : LogFiles dir' e' := by
  obtain ⟨hreadable, hwal, hretired⟩ := logFiles_iff.mp hi
  rw [logFiles_iff]
  cases h with
  | write _ _ hstep | sync _ _ hstep | insert _ hstep =>
    exact ⟨hreadable, hwal.trans (Wal.Shared.file_step hstep), hretired⟩
  | wal _ hstep =>
    have hwal' := hwal.trans (Wal.Shared.file_step hstep)
    exact ⟨hreadable.writeLog _ (Or.inr hwal'), hwal', hretired⟩
  | @rotateWrite _ number _ _ hcontent =>
    have hsteps := (Wal.recoverSteps_spec number (hreadable.getD number)).1 _ hcontent
    exact ⟨hreadable.insert hsteps.1, hwal, hretired⟩
  | rotateSwap _ hrecover =>
    obtain ⟨es, -, hfile⟩ := Wal.intact_of_recover hrecover
    have hheader : Wal.fileHeader <+: _ := hfile ▸ List.prefix_append _ _
    refine ⟨hreadable.insert (Or.inr hheader), hheader, fun p hp => ?_⟩
    -- the log that was current is retired with the header it had
    rcases List.mem_append.mp hp with hp | hp
    · exact hretired p hp
    · rw [List.mem_singleton.mp hp]
      exact hwal
  | @oldWal number _ _ old wal _ hold hstep =>
    have hwal' := (hretired _ (List.mem_of_find?_eq_some hold)).trans (Wal.Shared.file_step hstep)
    refine ⟨hreadable.writeLog _ (Or.inr hwal'), hwal, fun p hp => ?_⟩
    obtain ⟨q, hq, rfl⟩ := List.mem_map.mp hp
    split_ifs
    · exact hwal'
    · exact hretired q hq
  | @dropLog number fault old hold _ =>
    have hwal' := (hretired _ (List.mem_of_find?_eq_some hold)).trans
      (old.toLog.file_writePending fault)
    exact ⟨hreadable.writeLog _ (Or.inr hwal'), hwal,
      fun p hp => hretired p (List.mem_of_mem_filter hp)⟩
  | @unlinkLog _ _ number _ _ _ =>
    refine ⟨fun n bytes hn => ?_, hwal, hretired⟩
    change (dir.logs.erase number).lookup n = some bytes at hn
    refine hreadable n bytes ?_
    by_cases hne : n = number
    · rw [hne, AList.lookup_erase] at hn
      cases hn
    · rwa [AList.lookup_erase_ne hne] at hn
  | _ => exact ⟨hreadable, hwal, hretired⟩

/-- What a kill leaves can be replayed. -/
theorem LogFiles.killed (hi : LogFiles dir e) (cut : ℕ → ℕ) : (e.killed dir cut).LogsReadable := by
  have hall : ∀ (logs : List (ℕ × Wal.Shared)) (dir : Dir), dir.LogsReadable →
      (∀ p ∈ logs, Wal.fileHeader <+: p.2.file) →
      (logs.foldl (fun dir p => dir.writeLog p.1 (p.2.file ++ p.2.buf.take (cut p.1)))
        dir).LogsReadable := by
    intro logs
    induction logs with
    | nil => exact fun _ h _ => h
    | cons p logs ih =>
      intro dir h hheaders
      refine ih _ (h.writeLog _ ?_) fun q hq => hheaders q (List.mem_cons_of_mem _ hq)
      exact Wal.Readable.append (hheaders p List.mem_cons_self) _
  exact hall _ dir hi.readable hi.headers

theorem LogFiles.dropped (hi : LogFiles dir e) (fault : Option ℕ) :
    (e.dropped dir fault).LogsReadable :=
  hi.readable.writeLog _ (Or.inr (hi.current.trans (e.wal.toLog.file_writePending fault)))

/-! ### Kills, drops and opens -/

/-- A kill leaves everything but the logs alone. -/
theorem killed_eq (dir : Dir) (e : Engine) (cut : ℕ → ℕ) :
    e.killed dir cut = { dir with logs := (e.killed dir cut).logs } := by
  have hall : ∀ (logs : List (ℕ × Wal.Shared)) (dir : Dir),
      ∃ map, logs.foldl (fun dir p => dir.writeLog p.1 (p.2.file ++ p.2.buf.take (cut p.1))) dir
        = { dir with logs := map } := by
    intro logs
    induction logs with
    | nil => exact fun dir => ⟨dir.logs, rfl⟩
    | cons p logs ih =>
      intro dir
      obtain ⟨map, hmap⟩ := ih (dir.writeLog p.1 (p.2.file ++ p.2.buf.take (cut p.1)))
      refine ⟨map, hmap.trans ?_⟩
      rw [Engine.writeLog_eq]
  obtain ⟨map, hmap⟩ := hall e.openLogFiles dir
  rw [Engine.killed, hmap]

/-- So does a drop. -/
theorem dropped_eq (dir : Dir) (e : Engine) (fault : Option ℕ) :
    e.dropped dir fault = { dir with logs := (e.dropped dir fault).logs } :=
  Engine.writeLog_eq _ _ _

theorem Dir.Sound.congr (h : dir.Sound) (hmanifest : dir'.manifest = dir.manifest)
    (htables : dir'.tables = dir.tables) : dir'.Sound := by
  obtain ⟨snapshot, hl, levels, harr⟩ := h
  exact ⟨snapshot, (Dir.Loads.congr hmanifest).mpr hl, levels,
    harr.congr_dir fun _ _ => by rw [htables]⟩

/-- A store that was just opened. -/
theorem OpenedFrom.files {config : Config} (h : OpenedFrom dir config dir' e) : Files dir' e := by
  obtain ⟨r, heq, -, -, -⟩ := h.fresh
  have hjobs : e.jobs = fun _ => .idle := by rw [heq]; rfl
  have hfrozen : e.state.frozen = [] := by rw [heq]; rfl
  have hrotating : e.rotating = none := by rw [heq]; rfl
  refine ⟨h.arranged, ⟨e.snapshot, h.kept.loads.mpr h.loads, _, h.arranged⟩, h.tables_lt, ?_, ?_,
    ?_, ?_, ?_, ?_, ?_⟩
  · rw [hfrozen]
    exact fun f hf => nomatch hf
  · exact fun hne => absurd hrotating hne
  all_goals rw [hjobs]
  · exact fun _ n hn => nomatch hn
  · exact fun _ _ _ n hn => nomatch hn
  · exact fun _ _ n hn => nomatch hn
  · exact fun _ _ _ hcommitting => nomatch hcommitting
  · exact fun _ => trivial

theorem OpenedFrom.logFiles {config : Config} (h : OpenedFrom dir config dir' e) :
    LogFiles dir' e := by
  obtain ⟨r, heq, ⟨lastSeq, hrecover⟩, -, -⟩ := h.fresh
  obtain ⟨es, -, hfile⟩ := Wal.intact_of_recover hrecover
  rw [logFiles_iff, heq]
  refine ⟨h.kept.readable, ?_, fun p hp => nomatch hp⟩
  change Wal.fileHeader <+: r.file
  rw [hfile]
  exact List.prefix_append _ _

end

/-! ### Every run -/

/-- What a store keeps through every run. -/
def World.Consistent (w : World) : Prop :=
  match w.engine with
  | none => w.dir.Sound ∧ w.dir.LogsReadable
  | some e => Files w.dir e ∧ LogFiles w.dir e

/-- Every run there is: any operation may fail, and the process may be killed anywhere. -/
abbrev World.Runs (w : World) : Prop := Reachable World.step (fun _ _ => True) (· = World.initial) w

theorem Dir.empty_sound : Dir.empty.Sound :=
  ⟨Snapshot.default, Or.inr ⟨rfl, rfl⟩, [[]], arranged_nil _⟩

theorem World.Consistent.step {w w' : World} {action : Action} (hi : w.Consistent)
    (h : w.Moves action w') : w'.Consistent := by
  unfold World.Consistent at hi
  cases h with
  | engine hengine hmoves =>
    rw [hengine] at hi
    exact ⟨hi.1.step hmoves, hi.2.step hmoves⟩
  | @kill e cut hengine =>
    rw [hengine] at hi
    refine ⟨hi.1.sound.congr ?_ ?_, hi.2.killed cut⟩
    · change (e.killed w.dir cut).manifest = _
      rw [killed_eq]
    · change (e.killed w.dir cut).tables = _
      rw [killed_eq]
  | @close e fault hengine hrest =>
    rw [hengine] at hi
    refine ⟨hi.1.sound.congr ?_ ?_, hi.2.dropped fault⟩
    · change (e.dropped w.dir fault).manifest = _
      rw [dropped_eq]
    · change (e.dropped w.dir fault).tables = _
      rw [dropped_eq]
  | openStore hengine hopen =>
    rw [hengine] at hi
    have hopened := openedFrom hi.1 hi.2 hopen
    exact ⟨hopened.files, hopened.logFiles⟩
  | openKilled hengine =>
    rw [hengine] at hi
    obtain ⟨snapshot, hl, hkept⟩ := openKilled_kept hi.1 hi.2 _ _
    exact ⟨hkept.sound hl hi.1, hkept.readable⟩

theorem consistent_initial : World.initial.Consistent :=
  ⟨Dir.empty_sound, fun _ _ h => nomatch h⟩

/-- **Every run keeps the directory consistent.** -/
theorem consistent_of_reachable {ok : World → Action → Prop} {w : World}
    (hw : Reachable World.step ok (· = World.initial) w) : w.Consistent := by
  refine hw.invariant ?_ fun _ _ _ _ hi _ h => hi.step (World.moves_of_step h)
  rintro _ rfl
  exact consistent_initial

theorem World.Consistent.opened {w : World} (hc : w.Consistent) {e : Engine}
    (he : w.engine = some e) : Files w.dir e ∧ LogFiles w.dir e := by
  rwa [World.Consistent, he] at hc

theorem World.Consistent.closed {w : World} (hc : w.Consistent) (hdown : w.engine = none) :
    w.dir.Sound ∧ w.dir.LogsReadable := by
  rwa [World.Consistent, hdown] at hc

theorem files_of_reachable {ok : World → Action → Prop} {w : World}
    (hw : Reachable World.step ok (· = World.initial) w) {e : Engine} (he : w.engine = some e) :
    Files w.dir e :=
  ((consistent_of_reachable hw).opened he).1

/-- **The invariants of an open store.**  What holds of every store that was just opened and is kept
by the steps of an open store holds whenever the store is open. -/
theorem World.engine_invariant (P : Dir → Engine → History → Prop) {ok : World → Action → Prop}
    (hopened : ∀ dir config dir' e, OpenedFrom dir config dir' e → P dir' e (History.fresh e.get))
    (hstep : ∀ (w : World) e action dir' e', Reachable World.step ok (· = World.initial) w →
      w.engine = some e → P w.dir e w.history → ok w action → Engine.Moves w.dir e action dir' e' →
        P dir' e' (w.history.observe action e e'))
    {w : World} (hw : Reachable World.step ok (· = World.initial) w) :
    ∀ e, w.engine = some e → P w.dir e w.history := by
  have hinitial : ∀ w, w = World.initial → ∀ e, w.engine = some e → P w.dir e w.history := by
    rintro _ rfl e he
    cases he
  refine Reachable.invariant hinitial (fun w _ _ hreach ih hok h => ?_) hw
  intro e' he'
  cases World.moves_of_step h with
  | engine hengine hmoves =>
    obtain rfl := Option.some.inj he'
    exact hstep _ _ _ _ _ hreach hengine (ih _ hengine) hok hmoves
  | openStore hengine hopen =>
    obtain rfl := Option.some.inj he'
    obtain ⟨hsound, hlogs⟩ := (consistent_of_reachable hreach).closed hengine
    exact hopened _ _ _ _ (openedFrom hsound hlogs hopen)
  | kill | close | openKilled => cases he'

theorem sound_of_reachable {ok : World → Action → Prop} {w : World}
    (hw : Reachable World.step ok (· = World.initial) w) : w.dir.Sound := by
  have hi := consistent_of_reachable hw
  unfold World.Consistent at hi
  split at hi
  · exact hi.1
  · exact hi.1.sound

/-- A trace that runs to a state passing a test. -/
theorem World.exists_of_run {ok : World → Action → Prop} {permitted : World → Action → Bool}
    {test : World → Bool} {trace : List Action} (hok : ∀ w a, permitted w a = true → ok w a)
    (h : (run World.step permitted World.initial trace).map test = some true) :
    ∃ w, Reachable World.step ok (· = World.initial) w ∧ test w = true :=
  @Reachable.exists_of_run _ _ _ _ (· = World.initial) _ _ _ _ hok rfl h

/-- A trace that runs to a store that is open and passes a test. -/
theorem World.exists_engine_of_run (ok : World → Action → Prop) {permitted : World → Action → Bool}
    {test : World → Engine → Bool} {trace : List Action}
    (hok : ∀ w a, permitted w a = true → ok w a)
    (h : (run World.step permitted World.initial trace).map (fun w => w.engine.any (test w))
      = some true) :
    ∃ w e, Reachable World.step ok (· = World.initial) w ∧ w.engine = some e ∧ test w e = true := by
  obtain ⟨w, hw, hany⟩ := World.exists_of_run hok h
  obtain ⟨e, he, htest⟩ := (Option.any_eq_true _ _).mp hany
  exact ⟨w, e, hw, he, htest⟩

/-! ### Calls that nothing interrupts -/

namespace Action

/-- A `set` or `delete` under `Always`. -/
def alwaysWrite (client : ℕ) (key : Bytes) (value : Option Bytes) : List Action :=
  let t := Wal.Thread.client client
  [.write client key value, .wal t .accept, .wal t .encode, .wal t (.write none),
    .wal t .beginFlush, .wal t (.endFlush true), .insert client, .leave client]

/-- A `set` or `delete` under `Interval` that does not fill the buffer. -/
def bufferedWrite (client : ℕ) (key : Bytes) (value : Option Bytes) : List Action :=
  let t := Wal.Thread.client client
  [.write client key value, .wal t .accept, .wal t .encode, .insert client, .leave client]

/-- A `flush` whose table is not finished yet: the rotation, and the flush thread at work. -/
def rotateAndTake (previous : ℕ) : List Action :=
  [.rotate 0, .rotateSwap, .dropLog previous none, .take, .alloc .flush, .create .flush,
    .finish .flush]

/-- The rest of a task, with `files` files to remove. -/
def commit (slot : Slot) (files : ℕ) : List Action :=
  List.append [.rename slot, .openOutput slot, .ready slot, .lock slot, .createManifest slot,
    .writeManifest slot, .renameManifest slot, .publish slot]
    (List.append (List.replicate files (.unlink slot)) [.done slot])

end Action

/-! ### The levels in memory -/

theorem Table.Sound.head_key {t : Table} (ht : t.Sound) :
    t.table.run.entries.head?.map Version.key = some t.file.minKey := by
  rw [ht.describes]
  cases hentries : t.table.run.entries with
  | nil => exact absurd hentries ht.nonempty
  | cons e rest => simp [FileMeta.metaOf, SsTable.minKey, hentries]

theorem Table.Sound.getLast_key {t : Table} (ht : t.Sound) :
    t.table.run.entries.getLast?.map Version.key = some t.file.maxKey := by
  rw [ht.describes]
  cases hlast : t.table.run.entries.getLast? with
  | none => exact absurd (List.getLast?_eq_none_iff.mp hlast) ht.nonempty
  | some e => simp [FileMeta.metaOf, SsTable.maxKey, hlast]

/-- **The levels in every state of every run.**  The snapshot and the levels hold the same files;
the record of a file has its first and its last key; the files of a deeper level are sorted and
apart; and the tables of a compaction's plan are all there, so that `find` never gives it up. -/
theorem reachable_levels {w : World} (hw : w.Runs) {e : Engine} (he : w.engine = some e) :
    (∀ i, ((levelAt e.state.levels i).map Table.file).Perm (e.snapshot.atLevel i))
      ∧ (∀ i, ∀ t ∈ levelAt e.state.levels i,
        t.table.run.entries.head?.map Version.key = some t.file.minKey
          ∧ t.table.run.entries.getLast?.map Version.key = some t.file.maxKey)
      ∧ (∀ i, i ≠ 0 → (levelAt e.state.levels i).Pairwise fun l r =>
        l.file.minKey ≤ r.file.minKey ∧ l.file.maxKey < r.file.minKey)
      ∧ ∀ snapshot plan, e.jobs .compact = .planned snapshot plan →
        (∀ f ∈ plan.inputs, ∃ t ∈ levelAt e.state.levels f.level,
          t.file = f ∧ e.state.find f.number = some t.table)
        ∧ (e.state.inputTables plan).length = plan.inputs.length := by
  have hi := files_of_reachable hw he
  have harr := hi.arranged
  refine ⟨harr.perm, fun i t ht => ?_, fun i hne => ?_, fun snapshot plan hpc =>
    ⟨fun f hf => ?_, ?_⟩⟩
  · exact ⟨(harr.sound i t ht).head_key, (harr.sound i t ht).getLast_key⟩
  · refine List.Pairwise.imp_of_mem (fun {l r} hl _ hlt => ⟨?_, hlt⟩) (harr.sorted i hne)
    exact (harr.sound i l hl).min_le_max.trans hlt.le
  all_goals
    have hok := hi.jobs .compact
    rw [hpc] at hok
    obtain ⟨-, hplanned⟩ := hok
  · obtain ⟨t, ht, rfl⟩ := harr.exists_table (hplanned.input_mem hf).1
    exact ⟨t, ht, rfl, harr.find e.state ht⟩
  · exact hplanned.length_inputTables harr

/-- A flush, a compaction into level 1 whose commit fails once the manifest is replaced, a kill, and
a new session that flushes a delete and plans the next compaction. -/
def flushCompactReopen : List Action :=
  List.flatten [[.openStore ⟨.always, 100, 1, 10⟩], Action.alwaysWrite 1 [1] (some [7]),
    Action.rotateAndTake 1, Action.commit .flush 1,
    [.plan, .find, .alloc .compact, .create .compact, .finish .compact],
    (Action.commit .compact 0).take 7, [.fail .compact],
    Action.alwaysWrite 1 [1] none, [.kill fun _ => 0, .openStore ⟨.always, 100, 1, 10⟩],
    Action.rotateAndTake 2, Action.commit .flush 1, [.plan]]

/-- The plan of a compaction that has not yet looked up its inputs. -/
def JobPc.plan : JobPc → Option Plan
  | .planned _ plan => some plan
  | _ => none

theorem JobPc.plan_eq_some {pc : JobPc} {plan : Plan} (h : pc.plan = some plan) :
    ∃ snapshot, pc = .planned snapshot plan := by
  cases pc with
  | planned snapshot plan' => exact ⟨snapshot, by rw [Option.some.inj h]⟩
  | _ => cases h

theorem reachable_levels_flushCompactReopen :
    ∃ (e : Engine) (snapshot : Snapshot) (plan : Plan), e.jobs .compact = .planned snapshot plan
      ∧ plan.inputs.length = 2 ∧ (e.state.inputTables plan).length = 2 := by
  obtain ⟨w, e, hw, he, htest⟩ := World.exists_engine_of_run (fun _ _ => True)
    (fun _ _ _ => trivial) (by decide +kernel : (run World.step (fun _ _ => true) World.initial
      flushCompactReopen).map (fun w => w.engine.any fun e =>
        (e.jobs .compact).plan.any fun plan => plan.inputs.length = 2) = some true)
  obtain ⟨plan, hplan, hlength⟩ := (Option.any_eq_true _ _).mp htest
  obtain ⟨snapshot, hpc⟩ := JobPc.plan_eq_some hplan
  have hinputs := (reachable_levels hw he).2.2.2 snapshot plan hpc
  have hlength : plan.inputs.length = 2 := of_decide_eq_true hlength
  exact ⟨e, snapshot, plan, hpc, hlength, hinputs.2.trans hlength⟩

/-! ### The manifest on disk -/

/-- **The manifest never dangles.**  Whatever failed and wherever the process was killed, the
manifest is complete, and each table it names is in the directory, can be opened, and has the keys
and the number of entries the manifest records. -/
theorem reachable_manifest {w : World} (hw : w.Runs) :
    w.dir.manifest ≠ some none
      ∧ ∀ snapshot, w.dir.manifest = some (some snapshot) → ∀ f ∈ snapshot.files,
        ∃ table, openTable w.dir f.number = .ok table ∧ f = FileMeta.metaOf f.number f.level table
          ∧ table.run.entries.head?.map Version.key = some f.minKey
          ∧ table.run.entries.getLast?.map Version.key = some f.maxKey
          ∧ table.run.entries.length = f.entries := by
  obtain ⟨snapshot, hloads, levels, harr⟩ := sound_of_reachable hw
  refine ⟨fun hnone => ?_, fun snapshot' hmanifest f hf => ?_⟩
  · rcases hloads with h | ⟨h, -⟩ <;> cases h.symm.trans hnone
  · obtain rfl := hloads.unique (Or.inl hmanifest)
    obtain ⟨t, ht, rfl⟩ := harr.exists_table hf
    have hsound := harr.sound _ t ht
    refine ⟨t.table, ?_, hsound.describes, hsound.head_key, hsound.getLast_key, ?_⟩
    · rw [openTable, harr.stored _ t ht]
    · rw [hsound.describes]
      rfl

/-- The manifest names the output of a compaction whose commit failed, while the snapshot in memory
still has its input. -/
theorem reachable_manifest_disagreeing : ∃ (w : World) (e : Engine) (snapshot : Snapshot),
    w.engine = some e ∧ w.dir.manifest = some (some snapshot)
      ∧ e.snapshot.files.map FileMeta.number = [3] ∧ snapshot.files.map FileMeta.number = [4]
      ∧ ∀ f ∈ snapshot.files, ∃ table, openTable w.dir f.number = .ok table
        ∧ table.run.entries.length = f.entries := by
  obtain ⟨w, e, hw, he, htest⟩ := World.exists_engine_of_run (fun _ _ => True)
    (fun _ _ _ => trivial) (by decide +kernel : (run World.step (fun _ _ => true) World.initial
      (flushCompactReopen.take 39)).map (fun w => w.engine.any fun e =>
        w.dir.manifest.join.any fun snapshot => e.snapshot.files.map FileMeta.number = [3]
          && snapshot.files.map FileMeta.number = [4]) = some true)
  obtain ⟨snapshot, hjoin, htest⟩ := (Option.any_eq_true _ _).mp htest
  have hmanifest := Option.join_eq_some_iff.mp hjoin
  simp only [Bool.and_eq_true, decide_eq_true_iff] at htest
  refine ⟨w, e, snapshot, he, hmanifest, htest.1, htest.2, fun f hf => ?_⟩
  obtain ⟨table, hopen, -, -, -, hentries⟩ := (reachable_manifest hw).2 snapshot hmanifest f hf
  exact ⟨table, hopen, hentries⟩

end Lsmkv
