import Lsmkv.Engine.Consistent
import Lsmkv.Engine.Layers
import Lsmkv.Engine.Logs

/-!
# File numbers are not reused

Logs and tables draw their numbers from one counter, which a commit stores in the manifest and
`Engine::open` otherwise derives from the files it finds.  Whatever fails and wherever the process
is killed, a number that is handed out is past every log in the directory and every log the engine
holds (`Fresh`), and the tables the manifest names keep their contents through every step
(`numbers_not_reused`).
-/

namespace Lsmkv

open Wal

/-- The logs of an open store: those that are open and those that hold a memtable. -/
def Engine.logNumbers (e : Engine) : List ℕ :=
  e.openLogFiles.map Prod.fst ++ e.state.activeLogs ++ e.state.frozen.flatMap Frozen.logs

/-- The next number is past every log, and the log a rotation creates is not one of the others and
has no records. -/
structure Fresh (dir : Dir) (e : Engine) : Prop where
  logs_lt : ∀ n ∈ dir.logs, n < e.nextNumber
  owned : ∀ n ∈ e.logNumbers, n < e.nextNumber ∧ n ∉ e.rotating
  rotating : ∀ n ∈ e.rotating, n < e.nextNumber ∧ contents ((dir.logs.lookup n).getD []) = []

section

variable {dir dir' : Dir} {e e' : Engine}

/-- A step that creates no log. -/
theorem Fresh.frame (hf : Fresh dir e) (hnext : e.nextNumber ≤ e'.nextNumber)
    (hlogs : ∀ n ∈ dir'.logs, n ∈ dir.logs) (howned : ∀ n ∈ e'.logNumbers, n ∈ e.logNumbers)
    (hrotating : ∀ n ∈ e'.rotating, n ∈ e.rotating
      ∧ (dir'.logs.lookup n = dir.logs.lookup n ∨ dir'.logs.lookup n = none)) :
    Fresh dir' e' where
  logs_lt n hn := (hf.logs_lt n (hlogs n hn)).trans_le hnext
  owned n hn := ⟨(hf.owned n (howned n hn)).1.trans_le hnext,
    fun h => (hf.owned n (howned n hn)).2 (hrotating n h).1⟩
  rotating n hn := by
    obtain ⟨hold, hlookup⟩ := hrotating n hn
    refine ⟨(hf.rotating n hold).1.trans_le hnext, ?_⟩
    rcases hlookup with hlookup | hlookup
    · rw [hlookup]
      exact (hf.rotating n hold).2
    · rw [hlookup]
      exact contents_short (by decide)

/-- A rewrite of an open log leaves the one that is being created. -/
theorem Fresh.writeLog (hf : Fresh dir e) {number : ℕ} (hnumber : number ∈ e.logNumbers)
    (content : Bytes) : ∀ n ∈ e.rotating,
      (dir.writeLog number content).logs.lookup n = dir.logs.lookup n := by
  intro n hn
  refine Dir.lookup_writeLog_of_ne _ ?_
  rintro rfl
  exact (hf.owned n hnumber).2 hn

theorem walNumber_mem_logNumbers (e : Engine) : e.walNumber ∈ e.logNumbers :=
  List.mem_append_left _ (List.mem_append_left _
    (List.mem_map_of_mem (mem_openLogFiles.mpr (Or.inr rfl) : (e.walNumber, e.wal) ∈ _)))

theorem retired_mem_logNumbers {p : ℕ × Shared} (hp : p ∈ e.retired) : p.1 ∈ e.logNumbers :=
  List.mem_append_left _ (List.mem_append_left _
    (List.mem_map_of_mem (mem_openLogFiles.mpr (Or.inl hp))))

/-- **Every step keeps the next number ahead**, whatever fails. -/
theorem Fresh.step (hf : Fresh dir e) (hr : dir.LogsReadable) {action : Action}
    (hm : Engine.Moves dir e action dir' e') : Fresh dir' e' := by
  -- a step of a task that keeps the frozen memtables
  have htask : ∀ {slot : Slot}, Engine.JobSide slot e e' → (∀ n ∈ dir'.logs, n ∈ dir.logs) →
      (∀ f ∈ e'.state.frozen, f ∈ e.state.frozen) →
      (∀ n, dir'.logs.lookup n = dir.logs.lookup n ∨ dir'.logs.lookup n = none) →
      Fresh dir' e' := by
    intro slot hs hlogs hfrozen hlookup
    refine hf.frame hs.nextNumber hlogs (fun n hn => ?_) fun n hn => ?_
    · rw [Engine.logNumbers, Engine.openLogFiles, hs.retired, hs.walNumber, hs.wal,
        hs.activeLogs] at hn
      rcases List.mem_append.mp hn with hn | hn
      · exact List.mem_append_left _ hn
      · obtain ⟨f, hf, hmem⟩ := List.mem_flatMap.mp hn
        exact List.mem_append_right _ (List.mem_flatMap.mpr ⟨f, hfrozen f hf, hmem⟩)
    · rw [hs.rotating] at hn
      exact ⟨hn, hlookup n⟩
  have hside : ∀ {slot : Slot}, action.slot = some slot → Engine.JobSide slot e e' := hm.jobSide
  cases hm with
  | write | sync | leave | rotateNot | insert =>
    exact hf.frame le_rfl (fun _ => id) (fun n hn => by simpa [Engine.logNumbers,
      Engine.openLogFiles] using hn) fun n hn => ⟨hn, Or.inl rfl⟩
  | wal =>
    refine hf.frame le_rfl (fun n hn => Dir.mem_writeLog.mp hn) (fun n hn => by simpa [
      Engine.logNumbers, Engine.openLogFiles] using hn) fun n hn => ⟨hn, Or.inl ?_⟩
    exact hf.writeLog (walNumber_mem_logNumbers e) _ n hn
  | rotate hreaders hrotating =>
    refine ⟨fun n hn => (hf.logs_lt n hn).trans (Nat.lt_succ_self _), fun n hn => ?_,
      fun n hn => ?_⟩
    · have hlt := (hf.owned n hn).1
      refine ⟨hlt.trans (Nat.lt_succ_self _), fun h => ?_⟩
      rw [Option.mem_some_iff.mp h] at hlt
      exact lt_irrefl _ hlt
    · obtain rfl := Option.mem_some_iff.mp hn
      refine ⟨Nat.lt_succ_self _, ?_⟩
      rw [AList.lookup_eq_none.mpr fun hin => lt_irrefl _ (hf.logs_lt _ hin)]
      exact contents_short (by decide)
  | @rotateWrite index number content hrotating hcontent =>
    obtain ⟨hlt, hempty⟩ := hf.rotating number hrotating
    refine ⟨fun n hn => ?_, hf.owned, fun n hn => ⟨(hf.rotating n hn).1, ?_⟩⟩
    · rcases (AList.mem_insert _).mp hn with rfl | hn
      · exact hlt
      · exact hf.logs_lt n hn
    · obtain rfl := Option.some.inj (hrotating.symm.trans hn)
      change contents (((dir.logs.insert number content).lookup number).getD []) = []
      rw [AList.lookup_insert, Option.getD_some,
        ((recoverSteps_spec number (hr.getD number)).1 _ hcontent).2, hempty]
  | @rotateSwap number r hrotating hrecover =>
    obtain ⟨hlt, -⟩ := hf.rotating number hrotating
    refine ⟨fun n hn => ?_, fun n hn => ⟨?_, fun h => by cases h⟩, fun n hn => by cases hn⟩
    · rcases (AList.mem_insert _).mp hn with rfl | hn
      · exact hlt
      · exact hf.logs_lt n hn
    · have hcases : n = number ∨ n ∈ e.logNumbers := by
        simp only [Engine.logNumbers, Engine.openLogFiles, List.map_append, List.map_cons,
          List.map_nil, List.flatMap_cons, List.mem_append, List.mem_singleton] at hn ⊢
        tauto
      rcases hcases with rfl | hn
      · exact hlt
      · exact (hf.owned n hn).1
  | rotateFail => exact hf.frame le_rfl (fun _ => id) (fun _ => id) fun n hn => by cases hn
  | @oldWal number thread event old wal hevent hold hwal =>
    refine hf.frame le_rfl (fun n hn => Dir.mem_writeLog.mp hn) (fun n hn => ?_) fun n hn =>
      ⟨hn, Or.inl (hf.writeLog (retired_mem_logNumbers (List.mem_of_find?_eq_some hold)) _ n hn)⟩
    have hnumbers : (e.retired.map fun q => if q.1 = number then (number, wal) else q).map Prod.fst
        = e.retired.map Prod.fst := by
      rw [List.map_map]
      refine List.map_congr_left fun q _ => ?_
      rw [Function.comp_apply]
      split_ifs with h
      · exact h.symm
      · rfl
    simpa only [Engine.logNumbers, Engine.openLogFiles, List.map_append, hnumbers] using hn
  | @dropLog number fault old hold hthread =>
    refine hf.frame le_rfl (fun n hn => Dir.mem_writeLog.mp hn) (fun n hn => ?_) fun n hn =>
      ⟨hn, Or.inl (hf.writeLog (retired_mem_logNumbers (List.mem_of_find?_eq_some hold)) _ n hn)⟩
    have hsub : ∀ n ∈ (e.retired.filter fun q => q.1 ≠ number).map Prod.fst,
        n ∈ e.retired.map Prod.fst := fun n hn => by
      obtain ⟨q, hq, rfl⟩ := List.mem_map.mp hn
      exact List.mem_map_of_mem (List.mem_of_mem_filter hq)
    simp only [Engine.logNumbers, Engine.openLogFiles, List.map_append, List.mem_append] at hn ⊢
    have := hsub n
    tauto
  | @unlinkLog slot frozen number rest hpc =>
    refine htask (hside rfl) (fun n hn => (AList.mem_erase.mp hn).2) (fun f hf => hf) fun n => ?_
    by_cases heq : n = number
    · exact Or.inr (heq ▸ AList.lookup_erase _ _)
    · exact Or.inl (AList.lookup_erase_ne heq)
  | @publish slot job next hpc =>
    exact htask (hside rfl) (fun _ => id) (fun f => Target.mem_frozen_of_publish)
      fun _ => Or.inl rfl
  | planNot => exact hf
  | take | plan | abandon | find | alloc | create | finish | rename | openOutput | ready | lock
  | createManifest | writeManifest | renameManifest | unlinkTable | done | fail =>
    exact htask (hside rfl) (fun _ => id) (fun _ => id) fun _ => Or.inl rfl

/-- `Engine::open` starts past every log it found. -/
theorem OpenedFrom.isFresh {config : Config} (h : OpenedFrom dir config dir' e) : Fresh dir' e := by
  obtain ⟨r, heq, -⟩ := h.fresh
  obtain ⟨older, holder⟩ := h.activeLogs
  refine ⟨fun n hn => h.logs_lt n ((h.logs_mem n).mp hn), fun n hn => ⟨h.logs_lt n ?_, ?_⟩,
    fun n hn => ?_⟩
  · have hfrozen : e.state.frozen = [] := by rw [heq]; rfl
    have hopen : e.openLogFiles.map Prod.fst = [e.walNumber] := by rw [heq]; rfl
    rw [Engine.logNumbers, hfrozen, hopen, List.flatMap_nil, List.append_nil] at hn
    rcases List.mem_append.mp hn with hn | hn
    · rw [List.mem_singleton.mp hn, holder]
      simp
    · exact hn
  · rw [heq]
    exact fun h => by cases h
  · rw [heq] at hn
    cases hn

end

/-! ### Whole runs -/

/-- The log a rotation creates, in every state of a run. -/
def World.Fresh (w : World) : Prop := ∀ e, w.engine = some e → Lsmkv.Fresh w.dir e

theorem fresh_of_reachable {ok : World → Action → Prop} {w : World}
    (hw : Reachable World.step ok (· = World.initial) w) : w.Fresh := by
  refine World.engine_invariant (fun dir e _ => Lsmkv.Fresh dir e)
    (fun _ _ _ _ hopened => hopened.isFresh) (fun w e _ _ _ hreach he hf _ hmoves => ?_) hw
  obtain ⟨-, hlogs⟩ := (consistent_of_reachable hreach).opened he
  exact hf.step hlogs.readable hmoves

/-- Whether an action is a step of a rotation, of a background task or of `Engine::open`. -/
def Action.managesFiles : Action → Bool
  | .rotate _ | .rotateWrite _ | .rotateSwap | .rotateFail | .openStore _ | .openKilled _ _ => true
  | action => action.slot.isSome

/-- A log that is there before and after such a step holds the same records. -/
theorem contents_of_managesFiles {w w' : World} {action : Action} (hc : w.Consistent)
    (hf : w.Fresh) (haction : action.managesFiles = true) (hm : w.Moves action w')
    {n : ℕ} {content content' : Bytes} (hn : w.dir.logs.lookup n = some content)
    (hn' : w'.dir.logs.lookup n = some content') : contents content' = contents content := by
  have hsame : w'.dir.logs.lookup n = w.dir.logs.lookup n → contents content' = contents content :=
    fun h => by rw [hn, hn'] at h; rw [Option.some.inj h]
  unfold World.Consistent at hc
  cases hm with
  | @engine e e' action dir' hengine hmoves =>
    rw [hengine] at hc
    have hfresh := hf e hengine
    cases hmoves with
    | write | sync | wal | insert | leave | oldWal | dropLog => cases haction
    | @rotateWrite index number bytes hrotating hbytes =>
      by_cases heq : n = number
      · -- the log being created has no record yet, whatever of its header is written
        subst heq
        have hempty := (hfresh.rotating n hrotating).2
        have hbytes' := ((recoverSteps_spec n (hc.2.readable.getD n)).1 _ hbytes).2
        rw [hn, Option.getD_some] at hempty hbytes'
        change (w.dir.logs.insert n bytes).lookup n = some content' at hn'
        rw [AList.lookup_insert] at hn'
        rw [← Option.some.inj hn', hbytes']
      · exact hsame (AList.lookup_insert_ne heq)
    | @rotateSwap number r hrotating hrecover =>
      by_cases heq : n = number
      · subst heq
        change (w.dir.logs.insert n r.file).lookup n = some content' at hn'
        rw [AList.lookup_insert] at hn'
        rw [← Option.some.inj hn', (spec_of_recover hrecover).2.2.1, hn, Option.getD_some]
      · exact hsame (AList.lookup_insert_ne heq)
    | @unlinkLog slot frozen number rest hpc =>
      by_cases heq : n = number
      · subst heq
        change (w.dir.logs.erase n).lookup n = some content' at hn'
        rw [AList.lookup_erase] at hn'
        cases hn'
      · exact hsame (AList.lookup_erase_ne heq)
    | _ => exact hsame rfl
  | kill | close => cases haction
  | openStore hengine hopen =>
    rw [hengine] at hc
    have := (openedFrom hc.1 hc.2 hopen).kept.contents n
    rwa [hn, hn', Option.getD_some, Option.getD_some] at this
  | openKilled hengine =>
    rw [hengine] at hc
    obtain ⟨snapshot, -, hkept⟩ := openKilled_kept hc.1 hc.2 _ _
    have := hkept.contents n
    rwa [hn, hn', Option.getD_some, Option.getD_some] at this

/-- The tables the manifest names stay as they are in every step. -/
theorem named_tables_step {w w' : World} {action : Action} (hc : w.Consistent)
    (hm : w.Moves action w') {snapshot : Snapshot} (hl : w.dir.Loads snapshot) {f : FileMeta}
    (hf : f ∈ snapshot.files) : w'.dir.tables.lookup f.number = w.dir.tables.lookup f.number := by
  unfold World.Consistent at hc
  cases hm with
  | @engine e e' action dir' hengine hmoves =>
    rw [hengine] at hc
    by_cases haction : ∃ slot, action = .renameManifest slot
    · obtain ⟨slot, rfl⟩ := haction
      cases hmoves
      rfl
    · exact (hmoves.named hc.1 fun slot h => haction ⟨slot, h⟩).2 snapshot hl f hf
  | @kill e cut hengine =>
    change (e.killed w.dir cut).tables.lookup _ = _
    rw [killed_eq]
  | @close e fault hengine =>
    change (e.dropped w.dir fault).tables.lookup _ = _
    rw [dropped_eq]
  | openStore hengine hopen =>
    rw [hengine] at hc
    have hopened := openedFrom hc.1 hc.2 hopen
    obtain rfl := hopened.loads.unique hl
    exact hopened.kept.tables f hf
  | openKilled hengine =>
    rw [hengine] at hc
    obtain ⟨snapshot', hl', hkept⟩ := openKilled_kept hc.1 hc.2 _ _
    obtain rfl := hl'.unique hl
    exact hkept.tables f hf

/-- The log a rotation or the first open creates has no records. -/
theorem records_of_created {w w' : World} {action : Action} (hc : w.Consistent) (hf : w.Fresh)
    (hm : w.Moves action w') (haction : action = .rotateSwap
      ∨ (∃ config, action = .openStore config) ∧ ∀ n, n ∉ w.dir.logs) {e' : Engine}
    (he' : w'.engine = some e') : e'.wal.opened.records = [] := by
  unfold World.Consistent at hc
  rcases haction with rfl | ⟨⟨config, rfl⟩, hnone⟩
  · cases hm with
    | @engine e _ _ dir' hengine hmoves =>
      cases hmoves with
      | @rotateSwap number r hrotating hrecover =>
        obtain rfl := Option.some.inj he'
        exact (spec_of_recover hrecover).1.trans ((hf e hengine).rotating number hrotating).2
  · cases hm with
    | engine hengine hmoves => cases hmoves
    | openStore hengine hopen =>
      obtain rfl := Option.some.inj he'
      rw [hengine] at hc
      obtain ⟨r, heq, ⟨lastSeq, hrecover⟩, -⟩ := (openedFrom hc.1 hc.2 hopen).fresh
      rw [AList.lookup_eq_none.mpr (hnone _)] at hrecover
      have hrecords := (spec_of_recover hrecover).1
      rw [heq]
      exact hrecords.trans (contents_short (by decide))

/-- **File numbers are not reused over live data.**  In every run, whatever fails and wherever the
process is killed, no step touches a table the manifest on disk names; no step of a rotation, of a
background task or of `Engine::open` changes what a log holds, short of removing it; a number that
a rotation takes is not that of a log on disk, and until the swap not that of a log the engine
holds; and the log that a rotation or an open creates has no records. -/
theorem numbers_not_reused {w w' : World} {action : Action} (hw : w.Runs)
    (h : w.step action = some w') :
    (∀ snapshot, w.dir.manifest = some (some snapshot) → ∀ f ∈ snapshot.files,
        w'.dir.tables.lookup f.number = w.dir.tables.lookup f.number)
      ∧ (action.managesFiles = true → ∀ n content content', w.dir.logs.lookup n = some content →
        w'.dir.logs.lookup n = some content' → contents content' = contents content)
      ∧ (∀ e e' n, w.engine = some e → w'.engine = some e' → e.rotating = none →
        e'.rotating = some n → n ∉ w.dir.logs)
      ∧ (∀ e n, w.engine = some e → e.rotating = some n → n ∉ e.logNumbers)
      ∧ ∀ e', w'.engine = some e' → (action = .rotateSwap
          ∨ (∃ config, action = .openStore config) ∧ ∀ n, n ∉ w.dir.logs) →
        e'.wal.opened.records = [] := by
  have hc := consistent_of_reachable hw
  have hf := fresh_of_reachable hw
  have hm := World.moves_of_step h
  refine ⟨fun snapshot hmanifest f hmem => named_tables_step hc hm (Or.inl hmanifest) hmem,
    fun haction n content content' => contents_of_managesFiles hc hf haction hm,
    fun e e' n he he' hnone hsome hin => ?_, fun e n he hsome hmem => ?_,
    fun e' he' haction => records_of_created hc hf hm haction he'⟩
  · have hlt := (hf e he).logs_lt n hin
    cases hm with
    | @engine e₁ _ _ dir' hengine hmoves =>
      obtain rfl := Option.some.inj (he.symm.trans hengine)
      obtain rfl := Option.some.inj he'
      cases hmoves with
      | rotate =>
        obtain rfl := Option.some.inj hsome
        exact lt_irrefl _ hlt
      | rotateSwap | rotateFail => cases hsome
      | _ => cases hnone.symm.trans hsome
    | openStore hengine => cases he.symm.trans hengine
    | kill | close | openKilled => cases he'
  · exact ((hf e he).owned n hmem).2 hsome

/-- A rotation after a kill that left an orphaned table and a half-written one. -/
def rotateAfterKill : List Action :=
  List.flatten [[.openStore ⟨.always, 100, 4, 10⟩], Action.alwaysWrite 1 [1] (some [7]),
    Action.rotateAndTake 1, Action.commit .flush 1, Action.alwaysWrite 1 [1] (some [8]),
    Action.rotateAndTake 2, [.rename .flush, .kill fun _ => 0, .openStore ⟨.always, 100, 4, 10⟩,
      .rotate 0]]

theorem numbers_not_reused_rotateAfterKill : ∃ (w w' : World) (e e' : Engine),
    w.step .rotateSwap = some w' ∧ w.engine = some e ∧ w'.engine = some e'
      ∧ e.rotating = some 6 ∧ 6 ∉ e.logNumbers ∧ e'.wal.opened.records = [] := by
  obtain ⟨w, e, hw, he, htest⟩ := World.exists_engine_of_run (fun _ _ => True)
    (fun _ _ _ => trivial) (by decide +kernel : (run World.step (fun _ _ => true) World.initial
      rotateAfterKill).map (fun w => w.engine.any fun e =>
        e.rotating = some 6 && ((w.step .rotateSwap).bind World.engine).isSome) = some true)
  simp only [Bool.and_eq_true, decide_eq_true_iff, Option.isSome_iff_exists] at htest
  obtain ⟨hrotating, e', hstep⟩ := htest
  obtain ⟨w', hw', he'⟩ := Option.bind_eq_some_iff.mp hstep
  obtain ⟨-, -, -, hfresh, hrecords⟩ := numbers_not_reused hw hw'
  exact ⟨w, w', e, e', hw', he, he', hrotating, hfresh e 6 he hrotating,
    hrecords e' he' (Or.inl rfl)⟩

end Lsmkv
