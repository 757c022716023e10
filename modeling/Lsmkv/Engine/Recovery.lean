import Lsmkv.Engine.Reopen

/-!
# What opening a directory leaves

* `open_after_killed_opens`: an open that is killed can be repeated.  Whatever happened before, and
  however often the process was killed inside `Engine::open`, the open that completes gives the
  store the first one would have given.
* `directory_exact`: an open heals the directory.  Whatever happened before it, from then on and
  while nothing fails, a store at rest has exactly the tables of its manifest and the logs of its
  memtables in the directory, and no temporary file.

The second rests on `FilesOwned`: every file belongs to the snapshot or to the task that is working
on it.
-/

namespace Lsmkv

/-! ### Opens that are killed -/

section

variable {dir dir' dir'' : Dir} {snapshot : Snapshot} {e e' : Engine}

theorem Dir.Kept.trans (h : dir.Kept snapshot dir') (h' : dir'.Kept snapshot dir'') :
    dir.Kept snapshot dir'' where
  manifest := h'.manifest.trans h.manifest
  tables f hf := (h'.tables f hf).trans (h.tables f hf)
  tables_mem n hn := h.tables_mem n (h'.tables_mem n hn)
  logs_mem n hn := h'.logs_mem n (h.logs_mem n hn)
  logs_new n hn := by
    rcases h'.logs_new n hn with hn | ⟨hnone, hle⟩
    · exact h.logs_new n hn
    · exact Or.inr ⟨fun m hm => hnone m (h.logs_mem m hm), hle⟩
  readable := h'.readable
  contents n := (h'.contents n).trans (h.contents n)

/-- Two opens of directories that hold the same give the same store. -/
theorem OpenedFrom.same {config config' : Config} {d d' : Dir} (ho : OpenedFrom dir config d e)
    (ho' : OpenedFrom dir' config' d' e') (hkept : dir.Kept e.snapshot dir') :
    e'.snapshot = e.snapshot ∧ (∀ i, levelAt e'.state.levels i = levelAt e.state.levels i)
      ∧ (∀ key, e'.get key = e.get key) ∧ e'.lastSequence = e.lastSequence := by
  have hsnapshot : e'.snapshot = e.snapshot := (hkept.loads.mp ho'.loads).unique ho.loads
  have hlevels : ∀ i, levelAt e'.state.levels i = levelAt e.state.levels i := by
    refine Arranged.levelAt_eq (hsnapshot ▸ ho'.arranged) (ho.arranged.congr_dir fun f hf => ?_)
    rw [ho'.kept.tables f (hsnapshot ▸ hf), hkept.tables f hf, ho.kept.tables f hf]
  obtain ⟨r, heq, -, -, hlast⟩ := ho.fresh
  obtain ⟨r', heq', -, -, hlast'⟩ := ho'.fresh
  have hfrozen : e.state.frozen = [] := by rw [heq]; rfl
  have hfrozen' : e'.state.frozen = [] := by rw [heq']; rfl
  refine ⟨hsnapshot, hlevels, fun key => ?_, ?_⟩
  · rw [Engine.get, Engine.get, State.get_eq_head _ _ ho.arranged.deep_sorted,
      State.get_eq_head _ _ ho'.arranged.deep_sorted, State.chain, State.chain,
      levelChain_congr hlevels, State.memChain, State.memChain, hfrozen, hfrozen', ho.active,
      ho'.active, hkept.allRecords]
  · have hwal : e.wal.lastSeq = r.lastSeq := by rw [heq]; rfl
    have hwal' : e'.wal.lastSeq = r'.lastSeq := by rw [heq']; rfl
    rw [hsnapshot, hkept.allRecords] at hlast'
    rw [Engine.lastSequence, Engine.lastSequence, hwal, hwal']
    exact hlast'.unique hlast

end

/-- A store that is down, with a directory that holds what `dir` held. -/
structure World.KeptFrom (dir : Dir) (snapshot : Snapshot) (w : World) : Prop where
  consistent : w.Consistent
  down : w.engine = none
  kept : dir.Kept snapshot w.dir

/-- An open that is killed leaves what it found. -/
theorem World.KeptFrom.openKilled {dir : Dir} {snapshot : Snapshot} {w w' : World}
    (hk : w.KeptFrom dir snapshot) (hloads : dir.Loads snapshot) {config : Config} {count : ℕ}
    (h : w.step (.openKilled config count) = some w') : w'.KeptFrom dir snapshot := by
  obtain ⟨hsound, hlogs⟩ := hk.consistent.closed hk.down
  have hmoves := World.moves_of_step h
  have hconsistent := hk.consistent.step hmoves
  cases hmoves with
  | engine hengine => cases hk.down.symm.trans hengine
  | openKilled =>
    obtain ⟨snapshot', hloads', hkept⟩ := openKilled_kept hsound hlogs config count
    obtain rfl := (hk.kept.loads.mp hloads').unique hloads
    exact ⟨hconsistent, rfl, hk.kept.trans hkept⟩

/-- **Recovery is idempotent.**  Whatever happened before, a directory that can be opened can still
be opened after the process was killed any number of times anywhere inside `Engine::open`, with any
configurations, and gives the store it would have given at first: the same manifest, the same files
at every level, the same answer for every key and the same last sequence number. -/
theorem open_after_killed_opens {w w' : World} (hw : w.Runs) (hdown : w.engine = none)
    (hkills : Reachable World.step (fun _ action => ∃ config count,
      action = .openKilled config count) (· = w) w')
    {config : Config} {ops : List FsOp} {e : Engine}
    (hopen : Engine.openPlan w.dir config = (ops, .ok e)) (config' : Config) :
    ∃ ops' e', Engine.openPlan w'.dir config' = (ops', .ok e') ∧ e'.snapshot = e.snapshot
      ∧ (∀ i, levelAt e'.state.levels i = levelAt e.state.levels i)
      ∧ (∀ key, e'.get key = e.get key) ∧ e'.lastSequence = e.lastSequence := by
  obtain ⟨hsound, hlogs⟩ := (consistent_of_reachable hw).closed hdown
  have hopened := openedFrom hsound hlogs hopen
  have hkept : w'.KeptFrom w.dir e.snapshot := by
    refine hkills.invariant ?_ fun _ _ _ _ ih hok h => ?_
    · rintro _ rfl
      exact ⟨consistent_of_reachable hw, hdown, Dir.Kept.refl _ hlogs⟩
    · obtain ⟨config₁, count, rfl⟩ := hok
      exact ih.openKilled hopened.loads h
  obtain ⟨hc, hdown', hkept⟩ := hkept
  obtain ⟨hsound', hlogs'⟩ := hc.closed hdown'
  obtain ⟨ops', e', hopen', hopened', -⟩ := openPlan_spec hsound' hlogs' config' (by
    rw [hkept.manifest]
    exact (manifest_of_openPlan hopen).imp_right fun hnone n hn => hnone n (hkept.tables_mem n hn))
  exact ⟨ops', e', hopen', hopened.same hopened' hkept⟩

/-- The answer of a store opened in a directory. -/
def Dir.answer (dir : Dir) (config : Config) (key : Bytes) : Option Bytes :=
  match Engine.openPlan dir config with
  | (_, .ok e) => e.get key
  | (_, .error _) => none

theorem Dir.exists_of_answer {dir : Dir} {config : Config} {key value : Bytes}
    (h : dir.answer config key = some value) :
    ∃ ops e, Engine.openPlan dir config = (ops, .ok e) ∧ e.get key = some value := by
  unfold Dir.answer at h
  split at h
  · rename_i ops e hopen
    exact ⟨ops, e, hopen, h⟩
  · cases h

theorem open_after_killed_opens_killedInFlush : ∃ (w w' : World) (e e' : Engine),
    w.dir.tables.keys = [3] ∧ w.engine = none ∧ w'.engine = none ∧ e.get [1] = some [7]
      ∧ (∀ key, e'.get key = e.get key) ∧ e'.lastSequence = e.lastSequence := by
  obtain ⟨w, hw, htest⟩ : ∃ w : World, w.Runs ∧ (w.engine.isNone && w.dir.tables.keys = [3]
      && w.dir.answer ⟨.always, 100, 4, 10⟩ [1] = some [7]) = true :=
    World.exists_of_run (fun _ _ _ => trivial)
      (by decide +kernel : (run World.step (fun _ _ => true) World.initial
        killedInFlush).map _ = some true)
  simp only [Bool.and_eq_true, decide_eq_true_iff, Option.isNone_iff_eq_none] at htest
  obtain ⟨⟨hdown, htables⟩, hanswer⟩ := htest
  obtain ⟨ops, e, hopen, hget⟩ := Dir.exists_of_answer hanswer
  have hstep : ∀ {w : World} (config : Config) (count : ℕ), w.engine = none →
      w.step (.openKilled config count) = some { w with
        dir := w.dir.applyAll ((Engine.openPlan w.dir config).1.take count) } := fun _ _ h => by
    simp only [World.step, h]
  have hkills := ((Reachable.start rfl : Reachable World.step
    (fun _ action => ∃ config count, action = .openKilled config count) (· = w) w).step
    ⟨_, _, rfl⟩ (hstep ⟨.always, 100, 4, 10⟩ 1 hdown)).step ⟨_, _, rfl⟩
    (hstep ⟨.group, 200, 4, 10⟩ 2 hdown)
  obtain ⟨ops', e', -, -, -, hsame, hlast⟩ :=
    open_after_killed_opens hw hdown hkills hopen ⟨.interval, 100, 4, 10⟩
  exact ⟨w, _, e, e', htables, hdown, hdown, hget, hsame, hlast⟩

/-! ### The files of the directory -/

namespace JobPc

/-- The table a task has under a temporary name. -/
def unfinished : JobPc → Option ℕ
  | writing ⟨_, _, some ⟨number, _, .created⟩, _⟩ => some number
  | writing ⟨_, _, some ⟨number, _, .finished⟩, _⟩ => some number
  | _ => none

/-- Whether a task has the manifest under its temporary name. -/
def isStoring : JobPc → Bool
  | committing _ _ .created | committing _ _ .written => true
  | _ => false

end JobPc

/-- Every file that is not a log belongs to the snapshot or to the task working on it. -/
structure FilesOwned (dir : Dir) (e : Engine) : Prop where
  tables : ∀ n ∈ dir.tables, (∃ f ∈ e.snapshot.files, f.number = n)
    ∨ ∃ slot, n ∈ (e.jobs slot).names
  partials : ∀ n ∈ dir.partials, ∃ slot, n ∈ (e.jobs slot).unfinished
  temp : dir.manifestTemp ≠ none → ∃ slot, (e.jobs slot).isStoring = true

section

variable {dir dir' : Dir} {ops : List FsOp} {e e' : Engine}

theorem Dir.mem_partials_applyAll {n : ℕ} (h : n ∈ (dir.applyAll ops).partials) :
    n ∈ dir.partials ∧ .removePartial n ∉ ops := by
  induction ops generalizing dir with
  | nil => exact ⟨h, List.not_mem_nil⟩
  | cons op ops ih =>
    rw [applyAll, List.foldl_cons, ← applyAll] at h
    obtain ⟨hmem, hrest⟩ := ih h
    cases op with
    | removePartial m =>
      obtain ⟨hne, hmem⟩ := AList.mem_erase.mp hmem
      refine ⟨hmem, fun hin => ?_⟩
      rcases List.mem_cons.mp hin with heq | hin
      · exact hne (FsOp.removePartial.inj heq)
      · exact hrest hin
    | removeManifestTemp | removeTable | setLog =>
      exact ⟨hmem, fun hin => hrest ((List.mem_cons.mp hin).resolve_left (by simp))⟩

theorem Dir.manifestTemp_applyAll (h : (dir.applyAll ops).manifestTemp ≠ none) :
    dir.manifestTemp ≠ none ∧ .removeManifestTemp ∉ ops := by
  induction ops generalizing dir with
  | nil => exact ⟨h, List.not_mem_nil⟩
  | cons op ops ih =>
    rw [applyAll, List.foldl_cons, ← applyAll] at h
    obtain ⟨hne, hrest⟩ := ih h
    cases op with
    | removeManifestTemp => exact absurd rfl hne
    | removePartial | removeTable | setLog =>
      exact ⟨hne, fun hin => hrest ((List.mem_cons.mp hin).resolve_left (by simp))⟩

/-- An open removes what a crash left half-written. -/
theorem leftovers_subset_openPlan (dir : Dir) (config : Config) :
    (Listing.scan dir).leftovers ⊆ (Engine.openPlan dir config).1 := by
  unfold Engine.openPlan
  dsimp only
  cases loadManifest dir with
  | error err => exact List.Subset.refl _
  | ok snapshot =>
    dsimp only
    cases openLevels (dir.applyAll (Engine.cleanup dir snapshot)) snapshot with
    | error err => exact List.subset_append_left _ _
    | ok levels =>
      exact fun op hop => List.mem_append_left _ (List.mem_append_left _ hop)

theorem OpenedFrom.filesOwned {config : Config} (ho : OpenedFrom dir config (dir.applyAll ops) e)
    (hopen : Engine.openPlan dir config = (ops, .ok e)) : FilesOwned (dir.applyAll ops) e := by
  have hleft : ∀ op ∈ (Listing.scan dir).leftovers, op ∈ ops := fun op hop => by
    have := leftovers_subset_openPlan dir config hop
    rwa [hopen] at this
  refine ⟨fun n hn => Or.inl (ho.named n hn), fun n hn => ?_, fun h => ?_⟩
  · obtain ⟨hmem, hop⟩ := Dir.mem_partials_applyAll hn
    refine absurd (hleft _ (List.mem_append_left _ (List.mem_map_of_mem ?_))) hop
    exact AList.mem_keys.mp hmem
  · obtain ⟨hne, hop⟩ := Dir.manifestTemp_applyAll h
    refine absurd (hleft _ (List.mem_append_right _ ?_)) hop
    rw [if_pos (Option.isSome_iff_ne_none.mpr hne)]
    exact List.mem_singleton_self _

/-- A task moves, with the files that are its own. -/
theorem FilesOwned.goto (hx : FilesOwned dir e) {slot : Slot} {pc : JobPc}
    (hjobs : e'.jobs = (e.setJob slot pc).jobs)
    (hfiles : ∀ n ∈ dir'.tables, (∃ f ∈ e.snapshot.files, f.number = n) →
      (∃ f ∈ e'.snapshot.files, f.number = n) ∨ n ∈ pc.names)
    (htables : ∀ n ∈ dir'.tables, n ∈ dir.tables ∨ n ∈ pc.names)
    (hnames : ∀ n ∈ (e.jobs slot).names, n ∈ dir'.tables →
      (∃ f ∈ e'.snapshot.files, f.number = n) ∨ n ∈ pc.names)
    (hpartials : ∀ n ∈ dir'.partials, n ∈ dir.partials ∧ n ∉ (e.jobs slot).unfinished
      ∨ n ∈ pc.unfinished)
    (htemp : dir'.manifestTemp ≠ none → dir.manifestTemp ≠ none ∧ (e.jobs slot).isStoring = false
      ∨ pc.isStoring = true) : FilesOwned dir' e' := by
  have hself : ∀ P : JobPc → Prop, P pc → ∃ slot, P (e'.jobs slot) := fun P hP =>
    ⟨slot, by rw [hjobs, Engine.setJob_self]; exact hP⟩
  have hother : ∀ P : JobPc → Prop, (∃ slot, P (e.jobs slot)) → ¬ P (e.jobs slot) →
      ∃ slot, P (e'.jobs slot) := by
    rintro P ⟨slot', hP⟩ hnot
    have hne : slot' ≠ slot := by
      rintro rfl
      exact hnot hP
    exact ⟨slot', by rw [hjobs, e.setJob_of_ne pc hne]; exact hP⟩
  refine ⟨fun n hn => ?_, fun n hn => ?_, fun h => ?_⟩
  · have hpc : n ∈ pc.names → (∃ f ∈ e'.snapshot.files, f.number = n)
        ∨ ∃ slot, n ∈ (e'.jobs slot).names := fun h => Or.inr (hself (n ∈ JobPc.names ·) h)
    rcases htables n hn with hold | hnew
    · rcases hx.tables n hold with hsnap | hjob
      · exact (hfiles n hn hsnap).elim Or.inl hpc
      · by_cases hslot : n ∈ (e.jobs slot).names
        · exact (hnames n hslot hn).elim Or.inl hpc
        · exact Or.inr (hother (n ∈ JobPc.names ·) hjob hslot)
    · exact hpc hnew
  · rcases hpartials n hn with ⟨hold, hnot⟩ | hnew
    · exact hother (n ∈ JobPc.unfinished ·) (hx.partials n hold) hnot
    · exact hself (n ∈ JobPc.unfinished ·) hnew
  · rcases htemp h with ⟨hold, hnot⟩ | hnew
    · exact hother (JobPc.isStoring · = true) (hx.temp hold) (by simp [hnot])
    · exact hself (JobPc.isStoring · = true) hnew

/-- **A step in which nothing fails leaves no file behind.** -/
theorem FilesOwned.step (hx : FilesOwned dir e) (hi : Files dir e) {action : Action}
    (hf : action.faultless = true) (hm : Engine.Moves dir e action dir' e') :
    FilesOwned dir' e' := by
  by_cases hslot : action.slot = none
  · have hs := hm.logSide hslot
    refine ⟨?_, ?_, ?_⟩
    · rw [hs.tables, hs.snapshot, hs.jobs]
      exact hx.tables
    · rw [hs.partials, hs.jobs]
      exact hx.partials
    · rw [hs.manifestTemp, hs.jobs]
      exact hx.temp
  -- a step that leaves the files as they are
  have hsame : ∀ {slot : Slot} {pc : JobPc}, dir' = dir → e'.snapshot = e.snapshot →
      e'.jobs = (e.setJob slot pc).jobs → (∀ n ∈ (e.jobs slot).names, n ∈ pc.names) →
      (e.jobs slot).unfinished = none → (e.jobs slot).isStoring = false → FilesOwned dir' e' := by
    intro slot pc hdir hsnap hjobs hnames hunfinished hstoring
    subst hdir
    refine hx.goto hjobs (fun n _ h => Or.inl (hsnap ▸ h)) (fun n hn => Or.inl hn)
      (fun n hn _ => Or.inr (hnames n hn)) (fun n hn => Or.inl ⟨hn, ?_⟩)
      fun h => Or.inl ⟨h, hstoring⟩
    rw [hunfinished]
    exact Option.not_mem_none n
  cases hm with
  | write | sync | wal | insert | leave | rotateNot | rotate | rotateWrite | rotateSwap
  | rotateFail | oldWal | dropLog => exact absurd rfl hslot
  | planNot => exact hx
  | fail => cases hf
  | take hpc | plan hpc | abandon hpc | find hpc =>
    refine hsame rfl rfl rfl (fun n hn => ?_) (by rw [hpc]; rfl) (by rw [hpc]; rfl)
    rw [hpc] at hn
    cases hn
  | ready hpc | lock hpc =>
    exact hsame rfl rfl rfl (fun n hn => by rwa [hpc] at hn) (by rw [hpc]; rfl) (by rw [hpc]; rfl)
  | alloc hpc =>
    refine hsame rfl rfl rfl (fun n hn => ?_) (by rw [hpc]; rfl) (by rw [hpc]; rfl)
    rw [hpc] at hn
    exact List.mem_append_left _ ((List.append_nil _).subst hn)
  | openOutput hpc =>
    refine hsame rfl rfl rfl (fun n hn => ?_) (by rw [hpc]; rfl) (by rw [hpc]; rfl)
    rw [hpc] at hn
    simpa [JobPc.names, Job.names, FileMeta.metaOf] using hn
  | @create slot target run number todo outputs hpc
  | @finish slot target run number todo outputs hpc =>
    refine hx.goto rfl (fun n _ h => Or.inl h) (fun n hn => Or.inl hn)
      (fun n hn _ => Or.inr (by rwa [hpc] at hn)) (fun n hn => ?_) fun h => Or.inl ⟨h, ?_⟩
    · rw [AList.mem_insert] at hn
      by_cases hnumber : n = number
      · exact Or.inr (hnumber ▸ rfl)
      · refine Or.inl ⟨hn.resolve_left hnumber, ?_⟩
        rw [hpc]
        simp [JobPc.unfinished, Ne.symm hnumber]
    · rw [hpc]
      rfl
  | @rename slot target run number todo outputs content hpc hcontent =>
    refine hx.goto rfl (fun n _ h => Or.inl h) (fun n hn => ?_)
      (fun n hn _ => Or.inr (by rwa [hpc] at hn)) (fun n hn => Or.inl ?_) fun h => Or.inl ⟨h, ?_⟩
    · rw [AList.mem_insert] at hn
      rcases hn with rfl | hn
      · exact Or.inr (List.mem_append_right _ (List.mem_singleton_self _))
      · exact Or.inl hn
    · obtain ⟨hne, hmem⟩ := AList.mem_erase.mp hn
      refine ⟨hmem, ?_⟩
      rw [hpc]
      simpa [JobPc.unfinished] using Ne.symm hne
    · rw [hpc]
      rfl
  | createManifest hpc | writeManifest hpc =>
    refine hx.goto rfl (fun n _ h => Or.inl h) (fun n hn => Or.inl hn)
      (fun n hn _ => Or.inr (by rwa [hpc] at hn)) (fun n hn => Or.inl ⟨hn, ?_⟩) fun _ => Or.inr rfl
    rw [hpc]
    exact Option.not_mem_none n
  | renameManifest hpc =>
    refine hx.goto rfl (fun n _ h => Or.inl h) (fun n hn => Or.inl hn)
      (fun n hn _ => Or.inr (by rwa [hpc] at hn)) (fun n hn => Or.inl ⟨hn, ?_⟩)
      fun h => absurd rfl h
    rw [hpc]
    exact Option.not_mem_none n
  | @publish slot job next hpc =>
    -- what the next snapshot does not keep the task is about to remove
    have hok := hi.jobs slot
    rw [hpc] at hok
    obtain ⟨hjob, ⟨-, hcurrent⟩, ⟨lastSeq, nextNumber, hnext⟩, -⟩ := hok
    refine hx.goto rfl (fun n _ h => ?_) (fun n hn => Or.inl hn) (fun n hn _ => Or.inl ?_)
      (fun n hn => Or.inl ⟨hn, ?_⟩) fun h => Or.inl ⟨h, ?_⟩
    · obtain ⟨f, hf, rfl⟩ := h
      by_cases hremoved : f.number ∈ job.target.removed
      · refine Or.inr ?_
        cases htarget : job.target with
        | flush frozen => rw [htarget] at hremoved; cases hremoved
        | compact snapshot plan => rwa [htarget] at hremoved
      · refine Or.inl ⟨f, ?_, rfl⟩
        rw [hnext]
        exact List.mem_append_left _ (List.mem_filter.mpr ⟨hf, by simpa using hremoved⟩)
    · rw [hpc] at hn
      change n ∈ job.names at hn
      rw [Job.names, hcurrent, Option.toList_none, List.map_nil, List.append_nil] at hn
      obtain ⟨t, ht, rfl⟩ := List.mem_map.mp hn
      refine ⟨t.file, ?_, rfl⟩
      rw [hnext]
      exact List.mem_append_right _ (List.mem_map_of_mem ht)
    · rw [hpc]
      exact Option.not_mem_none n
    · rw [hpc]
      rfl
  | unlinkLog hpc =>
    refine hx.goto rfl (fun n _ h => Or.inl h) (fun n hn => Or.inl hn)
      (fun n hn _ => Or.inr (by rwa [hpc] at hn)) (fun n hn => Or.inl ⟨hn, ?_⟩)
      fun h => Or.inl ⟨h, by rw [hpc]; rfl⟩
    rw [hpc]
    exact Option.not_mem_none n
  | unlinkTable hpc =>
    refine hx.goto rfl (fun n _ h => Or.inl h) (fun n hn => Or.inl (AList.mem_erase.mp hn).2)
      (fun n hn hmem => Or.inr ?_) (fun n hn => Or.inl ⟨hn, ?_⟩)
      fun h => Or.inl ⟨h, by rw [hpc]; rfl⟩
    · rw [hpc] at hn
      exact (List.mem_cons.mp hn).resolve_left (AList.mem_erase.mp hmem).1
    · rw [hpc]
      exact Option.not_mem_none n
  | @done slot target hpc =>
    refine hsame rfl rfl rfl (fun n hn => ?_) (by rw [hpc]; rfl) (by rw [hpc]; rfl)
    rw [hpc] at hn
    cases target <;> cases hn

end

/-- A store that is open, with every file of its directory accounted for. -/
structure World.Healed (w : World) : Prop where
  consistent : w.Consistent
  opened : ∀ e, w.engine = some e → FilesOwned w.dir e ∧ Lsmkv.Committed w.dir e ∧ Logs w.dir e

theorem World.Healed.openStore {w : World} (hc : w.Consistent) (hdown : w.engine = none)
    {config : Config} {ops : List FsOp} {e : Engine}
    (hopen : Engine.openPlan w.dir config = (ops, .ok e)) :
    World.Healed ⟨w.dir.applyAll ops, some e, History.fresh e.get⟩ := by
  obtain ⟨hsound, hlogs⟩ := hc.closed hdown
  have hopened := openedFrom hsound hlogs hopen
  refine ⟨hc.step (.openStore hdown hopen), fun e' he' => ?_⟩
  obtain rfl : e = e' := Option.some.inj he'
  exact ⟨hopened.filesOwned hopen, hopened.committed, hopened.logs.1⟩

theorem World.Healed.step {w w' : World} {action : Action} (hh : w.Healed)
    (hf : action.faultless = true) (hm : w.Moves action w') : w'.Healed := by
  have hc := hh.consistent
  cases hm with
  | engine hengine hmoves =>
    obtain ⟨hfiles, hlogFiles⟩ := hc.opened hengine
    obtain ⟨howned, hcommitted, hlogs⟩ := hh.opened _ hengine
    refine ⟨hc.step (.engine hengine hmoves), fun e' he' => ?_⟩
    obtain rfl := Option.some.inj he'
    exact ⟨howned.step hfiles hf hmoves, hcommitted.step hfiles hf hmoves,
      (hlogs.step hfiles hlogFiles.readable (hmoves.orderly hf) hmoves).1⟩
  | kill hengine => exact ⟨hc.step (.kill hengine), fun e he => (by cases he)⟩
  | close hengine hrest => exact ⟨hc.step (.close hengine hrest), fun e he => (by cases he)⟩
  | openStore hengine hopen => exact .openStore hc hengine hopen
  | openKilled hengine => exact ⟨hc.step (.openKilled hengine), fun e he => (by cases he)⟩

/-- **An open heals the directory.**  Whatever happened before a store was opened, and as long as
nothing fails from then on, however often the process is killed or closes and opens the store again:
once no task runs, the manifest is the snapshot in memory, the tables in the directory are exactly
those it names, the logs exactly those of the memtables, and there is no temporary file. -/
theorem directory_exact {w : World} (hw : w.Runs) (hdown : w.engine = none) {config : Config}
    {ops : List FsOp} {e₀ : Engine} (hopen : Engine.openPlan w.dir config = (ops, .ok e₀))
    {w' : World} (hs : Reachable World.step (fun _ action => action.faultless = true)
      (· = ⟨w.dir.applyAll ops, some e₀, History.fresh e₀.get⟩) w')
    {e : Engine} (he : w'.engine = some e) (hrest : e.atRest = true) :
    w'.dir.Loads e.snapshot
      ∧ (∀ n, n ∈ w'.dir.tables ↔ ∃ f ∈ e.snapshot.files, f.number = n)
      ∧ (∀ n, n ∈ w'.dir.logs ↔ n ∈ e.state.activeLogs ∨ ∃ f ∈ e.state.frozen, n ∈ f.logs)
      ∧ (∀ n, n ∉ w'.dir.partials) ∧ w'.dir.manifestTemp = none := by
  have hhealed : w'.Healed := by
    refine hs.invariant ?_ fun _ _ _ _ ih hok h => ih.step hok (World.moves_of_step h)
    rintro _ rfl
    exact .openStore (consistent_of_reachable hw) hdown hopen
  obtain ⟨hfiles, -⟩ := hhealed.consistent.opened he
  obtain ⟨howned, hcommitted, hlogs⟩ := hhealed.opened e he
  obtain ⟨-, hrotating, -, hidle, -⟩ := Engine.atRest_iff.mp hrest
  have hlive : ∀ n, n ∈ e.liveLogs ++ e.rotating.toList
      ↔ n ∈ e.state.activeLogs ∨ ∃ f ∈ e.state.frozen, n ∈ f.logs := fun n => by
    rw [Engine.liveLogs, hidle .flush, hrotating]
    simp [JobPc.logsToRemove, or_comm]
  refine ⟨hcommitted.loads fun slot => ?_, fun n => ⟨fun hn => ?_, ?_⟩, fun n => ⟨fun hn => ?_,
    fun hn => ?_⟩, fun n hn => ?_, ?_⟩
  · rw [hidle slot]
    rfl
  · refine (howned.tables n hn).resolve_right ?_
    rintro ⟨slot, hslot⟩
    rw [hidle slot] at hslot
    cases hslot
  · rintro ⟨f, hf, rfl⟩
    obtain ⟨t, ht, rfl⟩ := hfiles.arranged.exists_table hf
    rw [← AList.lookup_isSome, hfiles.arranged.stored _ t ht]
    rfl
  · exact (hlive n).mp (hlogs.known n hn)
  · refine hlogs.present n ?_
    have := (hlive n).mpr hn
    rwa [hrotating, Option.toList_none, List.append_nil] at this
  · obtain ⟨slot, hslot⟩ := howned.partials n hn
    rw [hidle slot] at hslot
    cases hslot
  · by_contra hne
    obtain ⟨slot, hslot⟩ := howned.temp hne
    rw [hidle slot] at hslot
    cases hslot

/-- Whether a run of the store a directory is opened to, in which nothing fails, ends in a state
that passes a test. -/
def World.sessionPasses (config : Config) (trace : List Action) (test : World → Bool)
    (w : World) : Bool :=
  match Engine.openPlan w.dir config with
  | (ops, .ok e) => (run World.step (fun _ action => action.faultless)
      ⟨w.dir.applyAll ops, some e, History.fresh e.get⟩ trace).any test
  | (_, .error _) => false

theorem World.exists_of_sessionPasses {config : Config} {trace : List Action}
    {test : World → Bool} {w : World} (h : w.sessionPasses config trace test = true) :
    ∃ ops e w', Engine.openPlan w.dir config = (ops, .ok e)
      ∧ Reachable World.step (fun _ action => action.faultless = true)
        (· = ⟨w.dir.applyAll ops, some e, History.fresh e.get⟩) w' ∧ test w' = true := by
  unfold World.sessionPasses at h
  split at h
  · rename_i ops e hopen
    obtain ⟨w', hw', htest⟩ := (Option.any_eq_true _ _).mp h
    exact ⟨ops, e, w', hopen, Reachable.of_run (fun _ _ h => h) (Reachable.start rfl) hw', htest⟩
  · cases h

/-- A session whose flush fails and whose process is then killed inside the next flush. -/
def killedAfterFailure : List Action :=
  List.flatten [[.openStore ⟨.always, 100, 4, 10⟩], Action.alwaysWrite 1 [1] (some [7]),
    Action.rotateAndTake 1, [.fail .flush, .take, .alloc .flush, .create .flush, .kill fun _ => 0]]

/-- A write and its flush. -/
def writeAndFlush : List Action :=
  List.flatten [Action.alwaysWrite 1 [2] (some [8]), Action.rotateAndTake 2,
    Action.commit .flush 2]

theorem directory_exact_killedAfterFailure : ∃ (w w' : World) (e : Engine),
    w.dir.partials.keys = [4, 3] ∧ e.snapshot.files.map FileMeta.number = [4]
      ∧ (∀ n, n ∈ w'.dir.tables ↔ ∃ f ∈ e.snapshot.files, f.number = n)
      ∧ ∀ n, n ∉ w'.dir.partials := by
  obtain ⟨w, hw, htest⟩ : ∃ w : World, w.Runs ∧ (w.engine.isNone && w.dir.partials.keys = [4, 3]
      && w.sessionPasses ⟨.always, 100, 4, 10⟩ writeAndFlush fun w => w.engine.any fun e =>
        e.atRest && e.snapshot.files.map FileMeta.number = [4]) = true :=
    World.exists_of_run (fun _ _ _ => trivial)
      (by decide +kernel : (run World.step (fun _ _ => true) World.initial
        killedAfterFailure).map _ = some true)
  simp only [Bool.and_eq_true, decide_eq_true_iff, Option.isNone_iff_eq_none] at htest
  obtain ⟨⟨hdown, hpartials⟩, hpasses⟩ := htest
  obtain ⟨ops, e₀, w', hopen, hs, htest⟩ := World.exists_of_sessionPasses hpasses
  obtain ⟨e, he, htest⟩ := (Option.any_eq_true _ _).mp htest
  simp only [Bool.and_eq_true, decide_eq_true_iff] at htest
  obtain ⟨-, htables, -, hnone, -⟩ := directory_exact hw hdown hopen hs he htest.1
  exact ⟨w, w', e, hpartials, htest.2, htables, hnone⟩

end Lsmkv
