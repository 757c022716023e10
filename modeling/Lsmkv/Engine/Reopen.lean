import Lsmkv.Engine.Sessions

/-!
# What a store answers once it is opened again

* `get_after_kill`: while nothing fails, a store that is opened after a kill answers from the
  mutations of the last session up to some point behind every one that was acknowledged.
* `reopened_eq`: a store that is dropped and opened again is the same store: what it answers, its
  last sequence number, and its levels.
* `reopened_get_iff`: background tasks may fail, as long as no replaced log stays behind.
  `stale_after_failed_unlink` is what happens otherwise: the log is replayed over newer tables.

All three rest on `World.Accounted`.  For the levels, `Committed` follows the manifest: it is the
snapshot in memory except between the rename that replaces it and the publication.
-/

namespace Lsmkv

open Wal

namespace World

/-- Whether nothing fails in a step, and a kill catches a log that acknowledges nothing before it is
in the file. -/
def Faultless (w : World) (action : Action) : Prop :=
  action.faultless = true ∧ (action.isKill = true → ∀ e ∈ w.engine, e.config.sync ≠ .interval)

instance (w : World) (action : Action) : Decidable (w.Faultless action) :=
  inferInstanceAs (Decidable (_ ∧ _))

theorem Faultless.orderly {w : World} {action : Action} (h : w.Faultless action) :
    w.Orderly action := by
  obtain ⟨hfaultless, hkill⟩ := h
  intro e he
  cases action with
  | kill cut => exact hkill rfl e he
  | close fault => simpa [Action.faultless] using hfaultless
  | fail slot => cases hfaultless
  | _ => exact hfaultless

end World

/-! ### After a kill -/

/-- A session killed between the manifest of its flush and the removal of the log it replaced, with
a second write torn. -/
def killedInFlush : List Action :=
  List.flatten [[.openStore ⟨.always, 100, 4, 10⟩], Action.alwaysWrite 1 [1] (some [7]),
    Action.rotateAndTake 1, (Action.commit .flush 1).take 7,
    (Action.alwaysWrite 1 [1] none).take 3, [.kill fun _ => 3]]

section

variable {dir dir' : Dir} {e e' : Engine} {h : History} {l : Ledger}

/-- A store in which no thread is between its append and its insert answers from the records of its
logs and those whose logs are gone. -/
theorem Ledger.Holds.get (hh : l.Holds dir e h) (hl : Logs dir e) (hi : Files dir e)
    (hreaders : e.readers = []) (key : Bytes) :
    e.get key = (newest (l.gone ++ e.records dir) key).bind Version.value := by
  have hheld := hl.calm_wal.not_held fun client => hl.clients client (by simp [hreaders])
  rw [Engine.get, State.get_eq_head _ _ hi.arranged.deep_sorted,
    hh.layers.represents.value_eq key]
  congr 1
  refine newest_congr hh.distinct fun v _ => ?_
  have hcurrent : v ∈ l.current ↔ v ∈ e.activeRecords dir :=
    ⟨hh.current_sub v, fun hv => (hh.pending v hv).resolve_right (hheld v)⟩
  rw [Engine.records_eq]
  simp only [List.mem_append, hcurrent, or_assoc]

/-- **A store that is dropped and opened again answers the same.** -/
theorem Ledger.Holds.get_reopened (hh : l.Holds dir e h) (hl : Logs dir e) (hi : Files dir e)
    (hrest : e.atRest = true) {config : Config}
    (ho : OpenedFrom (e.dropped dir none) config dir' e') (key : Bytes) :
    e'.get key = e.get key := by
  obtain ⟨hreaders, -, hretired, -⟩ := Engine.atRest_iff.mp hrest
  obtain ⟨⟨m, hr⟩, hall⟩ := hh.dropped hl hretired
  rw [hr.get ho, hall, hh.get hl hi hreaders]

theorem IsLast.unique {base m m' : ℕ} {records : List Entry} (h : IsLast base records m)
    (h' : IsLast base records m') : m = m' := by
  have hle : ∀ {m m'}, IsLast base records m → IsLast base records m' → m ≤ m' := by
    rintro m m' ⟨-, -, rfl | ⟨v, hv, rfl⟩⟩ ⟨hbase, hall, -⟩
    · exact hbase
    · exact hall v hv
  exact le_antisymm (hle h h') (hle h' h)

/-! ### The manifest while nothing fails -/

/-- The manifest is the snapshot in memory unless a task is about to publish, and until there is one
every table belongs to a task. -/
structure Committed (dir : Dir) (e : Engine) : Prop where
  loads : (∀ slot, (e.jobs slot).isRenamed = false) → dir.Loads e.snapshot
  tables : dir.manifest = none → ∀ n ∈ dir.tables, ∃ slot, n ∈ (e.jobs slot).names

/-- A task that does not touch the manifest. -/
theorem Committed.goto (hc : Committed dir e) {slot : Slot} {pc : JobPc}
    (hmanifest : dir'.manifest = dir.manifest) (hsnapshot : e'.snapshot = e.snapshot)
    (hjobs : e'.jobs = (e.setJob slot pc).jobs)
    (hrenamed : pc.isRenamed = false → (e.jobs slot).isRenamed = false)
    (hnew : ∀ n ∈ dir'.tables, n ∈ dir.tables ∨ n ∈ pc.names)
    (hnames : ∀ n ∈ (e.jobs slot).names, n ∈ dir'.tables → n ∈ pc.names) : Committed dir' e' where
  loads h := by
    rw [hsnapshot]
    refine (Dir.Loads.congr hmanifest).mpr (hc.loads fun slot' => ?_)
    have hslot := h slot'
    rw [hjobs] at hslot
    by_cases heq : slot' = slot
    · subst heq
      rw [Engine.setJob_self] at hslot
      exact hrenamed hslot
    · rwa [e.setJob_of_ne pc heq] at hslot
  tables hnone n hn := by
    have hself : n ∈ pc.names → ∃ slot', n ∈ (e'.jobs slot').names := fun h =>
      ⟨slot, by rw [hjobs, Engine.setJob_self]; exact h⟩
    rcases hnew n hn with hold | h
    · obtain ⟨slot', hslot⟩ := hc.tables (hmanifest ▸ hnone) n hold
      by_cases heq : slot' = slot
      · subst heq
        exact hself (hnames n hslot hn)
      · exact ⟨slot', by rw [hjobs, e.setJob_of_ne pc heq]; exact hslot⟩
    · exact hself h

theorem Committed.step (hc : Committed dir e) (hi : Files dir e) {action : Action}
    (hf : action.faultless = true) (hm : Engine.Moves dir e action dir' e') :
    Committed dir' e' := by
  by_cases hslot : action.slot = none
  · have hs := hm.logSide hslot
    refine ⟨fun h => ?_, fun hnone n hn => ?_⟩
    · rw [hs.snapshot]
      exact (Dir.Loads.congr hs.manifest).mpr (hc.loads fun slot => by rw [← hs.jobs]; exact h slot)
    · rw [hs.jobs]
      exact hc.tables (hs.manifest ▸ hnone) n (hs.tables ▸ hn)
  -- a step that leaves the tables, and the names of the task
  have hsame : ∀ {slot : Slot} {pc : JobPc} {dir'' : Dir}, dir''.manifest = dir.manifest →
      dir''.tables = dir.tables → e'.snapshot = e.snapshot → e'.jobs = (e.setJob slot pc).jobs →
      (e.jobs slot).isRenamed = false → (∀ n ∈ (e.jobs slot).names, n ∈ pc.names) →
      Committed dir'' e' := fun hm ht hs hj hr hn =>
    hc.goto hm hs hj (fun _ => hr) (fun n hn => Or.inl (ht ▸ hn)) fun n hn' _ => hn n hn'
  cases hm with
  | write | sync | wal | insert | leave | rotateNot | rotate | rotateWrite | rotateSwap
  | rotateFail | oldWal | dropLog => exact absurd rfl hslot
  | planNot => exact hc
  | fail => cases hf
  | take hpc | plan hpc | abandon hpc | find hpc | unlinkLog hpc =>
    refine hsame rfl rfl rfl rfl (by rw [hpc]; rfl) fun n hn => ?_
    rw [hpc] at hn
    cases hn
  | create hpc | finish hpc | ready hpc | lock hpc | createManifest hpc | writeManifest hpc =>
    exact hsame rfl rfl rfl rfl (by rw [hpc]; rfl) fun n hn => by rwa [hpc] at hn
  | alloc hpc =>
    refine hsame rfl rfl rfl rfl (by rw [hpc]; rfl) fun n hn => ?_
    rw [hpc] at hn
    exact List.mem_append_left _ ((List.append_nil _).subst hn)
  | openOutput hpc =>
    refine hsame rfl rfl rfl rfl (by rw [hpc]; rfl) fun n hn => ?_
    rw [hpc] at hn
    simpa [JobPc.names, Job.names, FileMeta.metaOf] using hn
  | @rename slot target run number todo outputs content hpc hcontent =>
    refine hc.goto rfl rfl rfl (fun _ => by rw [hpc]; rfl) (fun n hn => ?_) fun n hn _ => ?_
    · rw [AList.mem_insert] at hn
      rcases hn with rfl | hn
      · exact Or.inr (List.mem_append_right _ (List.mem_singleton_self _))
      · exact Or.inl hn
    · rwa [hpc] at hn
  | @renameManifest slot job next content hpc =>
    refine ⟨fun h => ?_, fun hnone => by cases hnone⟩
    have hslot := h slot
    rw [Engine.setJob_self] at hslot
    cases hslot
  | @publish slot job next hpc =>
    have hok := hi.jobs slot
    rw [hpc] at hok
    have hmanifest := hok.2.2.2.2 rfl
    exact ⟨fun _ => Or.inl hmanifest, fun hnone => by cases hmanifest.symm.trans hnone⟩
  | unlinkTable hpc =>
    refine hc.goto rfl rfl rfl (fun _ => by rw [hpc]; rfl) (fun n hn => ?_) fun n hn hn' => ?_
    · exact Or.inl (AList.mem_erase.mp hn).2
    · rw [hpc] at hn
      exact (List.mem_cons.mp hn).resolve_left (AList.mem_erase.mp hn').1
  | @done slot target hpc =>
    refine hsame rfl rfl rfl rfl (by rw [hpc]; rfl) fun n hn => ?_
    rw [hpc] at hn
    cases target <;> cases hn

theorem OpenedFrom.committed {config : Config} (h : OpenedFrom dir config dir' e) :
    Committed dir' e := by
  have hloads := h.kept.loads.mpr h.loads
  refine ⟨fun _ => hloads, fun hnone n hn => ?_⟩
  obtain ⟨f, hf, -⟩ := h.named n hn
  rcases hloads with hloads | ⟨-, hdefault⟩
  · cases hloads.symm.trans hnone
  · rw [hdefault] at hf
    cases hf

/-- The manifest of a store that is open. -/
def World.Committed (w : World) : Prop := ∀ e, w.engine = some e → Lsmkv.Committed w.dir e

end

/-! ### Dropping and opening again -/

/-- What a drop leaves can be opened unless there are tables and no manifest. -/
theorem World.Consistent.reopen {w : World} (hc : w.Consistent) {e : Engine}
    (he : w.engine = some e) (hrest : e.atRest = true) (config : Config)
    (h : w.dir.manifest ≠ none ∨ ∀ n, n ∉ w.dir.tables) : ∃ ops e',
      Engine.openPlan (e.dropped w.dir none) config = (ops, .ok e')
        ∧ OpenedFrom (e.dropped w.dir none) config ((e.dropped w.dir none).applyAll ops) e' := by
  obtain ⟨hsound, hlogs⟩ := hc.step (.close he hrest)
  obtain ⟨ops, e', hplan, hopened, -⟩ := openPlan_spec hsound hlogs config (by rwa [dropped_eq])
  exact ⟨ops, e', hplan, hopened⟩

/-- **When failures of background tasks do not show.**  In every run in which no operation on a log
fails and every replaced log is removed, while any other operation of a flush or a compaction may
fail, a store that is dropped can be opened again and answers the same if and only if a manifest or
no table is on disk. -/
theorem reopened_get_iff {w : World}
    (hw : Reachable World.step World.Orderly (· = World.initial) w) {e : Engine}
    (he : w.engine = some e) (hrest : e.atRest = true) (config : Config) :
    (∃ ops e', Engine.openPlan (e.dropped w.dir none) config = (ops, .ok e')
        ∧ ∀ key, e'.get key = e.get key)
      ↔ w.dir.manifest ≠ none ∨ ∀ n, n ∉ w.dir.tables := by
  have ha := World.accounted_of_reachable (fun _ _ => id) hw
  have hc := consistent_of_reachable hw
  have hi := files_of_reachable hw he
  rw [World.Accounted, he] at ha
  obtain ⟨hl, l, hh⟩ := ha
  constructor
  · rintro ⟨ops, e', hplan, -⟩
    have := manifest_of_openPlan hplan
    rwa [dropped_eq] at this
  · intro h
    obtain ⟨ops, e', hplan, hopened⟩ := hc.reopen he hrest config h
    exact ⟨ops, e', hplan, hh.get_reopened hl hi hrest hopened⟩

/-- A flush that fails once its manifest is in place, and is not tried again before the drop. -/
def failedFlush : List Action :=
  List.flatten [[.openStore ⟨.always, 100, 4, 10⟩], Action.alwaysWrite 1 [1] (some [7]),
    Action.rotateAndTake 1, (Action.commit .flush 1).take 7, [.fail .flush]]

/-- A check of `World.Orderly` for traces without a kill. -/
def World.orderly (w : World) : Action → Bool
  | .fail slot => slot = .flush && w.engine.all fun e => (e.jobs .flush).logsToRemove = []
  | .kill _ => false
  | action => action.faultless

theorem World.orderly_sound (w : World) (action : Action) (h : w.orderly action = true) :
    w.Orderly action := by
  intro e he
  cases action with
  | kill cut => cases h
  | close fault => simpa [World.orderly, Action.faultless] using h
  | fail slot =>
    simp only [World.orderly, he, Option.all_some, Bool.and_eq_true, decide_eq_true_iff] at h
    obtain ⟨rfl, hlogs⟩ := h
    exact hlogs
  | _ => exact h

theorem reopened_get_iff_failedFlush : ∃ (w : World) (e e' : Engine), w.engine = some e
    ∧ e.snapshot.files = [] ∧ e.get [1] = some [7] ∧ ∀ key, e'.get key = e.get key := by
  obtain ⟨w, e, hw, he, htest⟩ := World.exists_engine_of_run World.Orderly World.orderly_sound
    (by decide +kernel : (run World.step World.orderly World.initial failedFlush).map (fun w =>
      w.engine.any fun e => e.atRest && e.snapshot.files = [] && e.get [1] = some [7]
        && w.dir.manifest ≠ none) = some true)
  simp only [Bool.and_eq_true, decide_eq_true_iff] at htest
  obtain ⟨⟨⟨hrest, hfiles⟩, hget⟩, hmanifest⟩ := htest
  obtain ⟨ops, e', -, hsame⟩ :=
    (reopened_get_iff hw he hrest ⟨.always, 100, 4, 10⟩).mpr (Or.inl hmanifest)
  exact ⟨w, e, e', he, hfiles, hget, hsame⟩

/-- A flush that fails to remove the log it replaced, a delete, and a second flush. -/
def failedUnlink : List Action :=
  List.flatten [[.openStore ⟨.always, 100, 4, 10⟩], Action.alwaysWrite 1 [1] (some [7]),
    Action.rotateAndTake 1, (Action.commit .flush 1).take 8, [.fail .flush],
    Action.alwaysWrite 1 [1] none, Action.rotateAndTake 2, Action.commit .flush 1]

/-- **A log that was not removed hides newer tables.**  Its records are replayed into the active
memtable of the next session, which is searched first. -/
theorem stale_after_failed_unlink :
    ¬ ∀ w, Reachable World.step (fun _ action => action.onlyTasksFail = true)
        (· = World.initial) w → ∀ e, w.engine = some e → e.atRest = true → ∀ config,
      ∃ ops e', Engine.openPlan (e.dropped w.dir none) config = (ops, .ok e')
        ∧ ∀ key, e'.get key = e.get key := by
  intro hall
  obtain ⟨w, e, hw, he, htest⟩ := World.exists_engine_of_run
    (fun _ action => action.onlyTasksFail = true) (fun _ _ h => h)
    (by decide +kernel : (run World.step (fun _ action => action.onlyTasksFail)
      World.initial failedUnlink).map (fun w => w.engine.any fun e => e.atRest && e.get [1] = none
        && (Engine.openPlan (e.dropped w.dir none) ⟨.always, 100, 4, 10⟩).2.toOption.any fun e' =>
          e'.get [1] = some [7]) = some true)
  simp only [Bool.and_eq_true, decide_eq_true_iff] at htest
  obtain ⟨⟨hrest, hget⟩, hreopened⟩ := htest
  obtain ⟨ops, e', hplan, hsame⟩ := hall w hw e he hrest ⟨.always, 100, 4, 10⟩
  rw [hplan] at hreopened
  have hstale : e'.get [1] = some [7] := of_decide_eq_true hreopened
  cases (hstale.symm.trans (hsame [1])).trans hget

end Lsmkv
