import Lsmkv.Engine.Moves
import Lsmkv.Engine.Publish

/-!
# The file set

What holds of the tables, the manifest and the levels in every state of an open store, whatever
operations fail.  `Files dir e` says that the levels in memory arrange the snapshot of the engine,
that the manifest on disk, which need not be that snapshot, names an arranged set too, and that the
files a background task works on are its own.  `JobOk` is what a task has established about its
outputs and `TargetOk` what it can still rely on about its inputs.

Two lemmas carry the steps.  `Files.move` covers every step by which a task works on its own files;
`Files.publish` is the end of a commit.
-/

namespace Lsmkv

open State

/-- What `Engine::open` would load. -/
def Dir.Loads (dir : Dir) (snapshot : Snapshot) : Prop :=
  dir.manifest = some (some snapshot) ∨ dir.manifest = none ∧ snapshot = Snapshot.default

/-- The manifest on disk names a set of files that can be arranged. -/
def Dir.Sound (dir : Dir) : Prop :=
  ∃ snapshot, dir.Loads snapshot ∧ ∃ levels, Arranged dir levels snapshot.files

theorem Dir.Loads.unique {dir : Dir} {s s' : Snapshot} (h : dir.Loads s) (h' : dir.Loads s') :
    s = s' := by
  rcases h with h | ⟨h, rfl⟩ <;> rcases h' with h' | ⟨h', rfl⟩
  · exact Option.some.inj (Option.some.inj (h.symm.trans h'))
  · cases h.symm.trans h'
  · cases h.symm.trans h'
  · rfl

theorem arranged_nil (dir : Dir) : Arranged dir [[]] [] where
  levels_ne := by simp
  numbers := List.nodup_nil
  perm := fun i => by cases i <;> exact List.Perm.refl _
  newest := List.Pairwise.nil
  sorted := fun i _ => by cases i <;> exact List.Pairwise.nil
  sound := fun i t ht => by cases i <;> cases ht
  stored := fun i t ht => by cases i <;> cases ht

/-! ### Background tasks -/

/-- The numbers of the files a task is writing. -/
def Job.names (job : Job) : List ℕ :=
  job.outputs.map (fun t => t.file.number) ++ job.current.toList.map Output.number

/-- The runs of the outputs, written or not. -/
def Job.runs (job : Job) : List (Run Bytes Bytes) :=
  job.outputs.map (fun t => t.table.run) ++ (job.current.toList.map Output.run ++ job.todo)

namespace JobPc

/-- The numbers of the tables that belong to a task: its outputs, and the inputs it is removing. -/
def names : JobPc → List ℕ
  | writing job | ready job _ | committing job _ _ => job.names
  | unlinking (.compact _ _) numbers => numbers
  | _ => []

/-- Whether the task holds the durable state. -/
def isCommitting : JobPc → Bool
  | committing _ _ _ => true
  | _ => false

/-- Whether the task has replaced the manifest and not published yet. -/
def isRenamed : JobPc → Bool
  | committing _ _ .renamed => true
  | _ => false

end JobPc

/-- What a task can rely on about what it was started for. -/
def TargetOk (e : Engine) : Slot → Target → List (Run Bytes Bytes) → Prop
  | .flush, .flush frozen, runs => e.state.frozen.getLast? = some frozen
    ∧ runs = [frozen.memtable.run]
  | .compact, .compact snapshot plan, runs => Planned snapshot plan e.snapshot.files
    ∧ ∃ target, runs = Compaction.writeMerged snapshot plan target (e.state.inputTables plan)
  | _, _, _ => False

/-- What a task has established about its outputs. -/
structure JobOk (dir : Dir) (e : Engine) (slot : Slot) (job : Job) : Prop where
  target : TargetOk e slot job.target job.runs
  names : job.names.Nodup
  newest : slot = .flush → ∀ f ∈ e.snapshot.files, f.level = 0 → ∀ n ∈ job.names, f.number < n
  describes : ∀ t ∈ job.outputs, t.file.Describes t.table ∧ t.file.level = job.target.level
  stored : ∀ t ∈ job.outputs, dir.tables.lookup t.file.number = some (some t.table)
  finished : ∀ o ∈ job.current, o.phase = .finished →
    dir.partials.lookup o.number = some (some (SsTable.write o.run))
  renamed : ∀ o ∈ job.current, o.phase = .renamed →
    dir.tables.lookup o.number = some (some (SsTable.write o.run))

/-- Every output is written and open. -/
def Job.Complete (job : Job) : Prop := job.todo = [] ∧ job.current = none

/-- What a task has established where it stands. -/
def PcOk (dir : Dir) (e : Engine) (slot : Slot) : JobPc → Prop
  | .idle => True
  | .planned snapshot plan => slot = .compact ∧ Planned snapshot plan e.snapshot.files
  | .writing job => JobOk dir e slot job
  | .ready job _ => JobOk dir e slot job ∧ job.Complete
  | .committing job next phase => JobOk dir e slot job ∧ job.Complete
    ∧ (∃ lastSeq nextNumber, next
      = e.snapshot.change (job.outputs.map Table.file) job.target.removed lastSeq nextNumber)
    ∧ (phase = .written → dir.manifestTemp = some (some next))
    ∧ (phase = .renamed → dir.manifest = some (some next))
  | .unlinking _ _ => True

/-- The file set of an open store. -/
structure Files (dir : Dir) (e : Engine) : Prop where
  arranged : Arranged dir e.state.levels e.snapshot.files
  sound : dir.Sound
  tables_lt : ∀ n ∈ dir.tables, n < e.nextNumber
  frozen_ne : ∀ f ∈ e.state.frozen, f.memtable.run.entries ≠ []
  rotating_ne : e.rotating ≠ none → e.state.active.run.entries ≠ []
  /-- The files of a task are not in the snapshot. -/
  owned : ∀ slot, ∀ n ∈ (e.jobs slot).names, n < e.nextNumber ∧ ∀ f ∈ e.snapshot.files, f.number ≠ n
  apart : ∀ slot slot', slot ≠ slot' → ∀ n ∈ (e.jobs slot).names, n ∉ (e.jobs slot').names
  /-- The manifest names the files of a task only once the task has replaced it. -/
  hidden : ∀ slot, (e.jobs slot).isRenamed = false → ∀ n ∈ (e.jobs slot).names,
    ∀ snapshot, dir.Loads snapshot → ∀ f ∈ snapshot.files, f.number ≠ n
  exclusive : ∀ slot slot', slot ≠ slot' → (e.jobs slot).isCommitting = true →
    (e.jobs slot').isCommitting = false
  jobs : ∀ slot, PcOk dir e slot (e.jobs slot)

/-! ### What the facts of a task depend on -/

section

variable {dir dir' : Dir} {e e' : Engine} {slot : Slot}

theorem Planned.refl {snapshot : Snapshot} {plan : Plan}
    (hinputs : plan.inputs = Compaction.inputsFor snapshot plan.level) :
    Planned snapshot plan snapshot.files :=
  ⟨hinputs, [], by simp, by simp⟩

theorem inputTables_congr {s s' : State} (h : s'.levels = s.levels) (plan : Plan) :
    s'.inputTables plan = s.inputTables plan := by
  unfold State.inputTables State.find
  rw [h]

/-- The inputs of a compaction are the tables the directory has under their numbers, so they do not
depend on how the files are arranged. -/
theorem inputTables_eq {s s' : State} {files files' : List FileMeta}
    (h : Arranged dir s.levels files) (h' : Arranged dir s'.levels files') {plan : Plan}
    (hmem : ∀ f ∈ plan.inputs, f ∈ files ∧ f ∈ files') :
    s'.inputTables plan = s.inputTables plan := by
  refine List.filterMap_congr fun f hf => ?_
  obtain ⟨t, ht, rfl⟩ := h.exists_table (hmem f hf).1
  obtain ⟨u, hu, hut⟩ := h'.exists_table (hmem _ hf).2
  have hstored := h'.stored _ u hu
  rw [hut, h.stored _ t ht] at hstored
  rw [h.find s ht, ← hut, h'.find s' hu, Option.some.inj (Option.some.inj hstored)]

theorem TargetOk.mono {target : Target} {runs : List (Run Bytes Bytes)}
    (h : TargetOk e slot target runs) (hsnapshot : e'.snapshot = e.snapshot)
    (hlevels : e'.state.levels = e.state.levels)
    (hfrozen : ∀ f, e.state.frozen.getLast? = some f → e'.state.frozen.getLast? = some f) :
    TargetOk e' slot target runs := by
  cases slot <;> cases target
  · exact ⟨hfrozen _ h.1, h.2⟩
  · exact h
  · exact h
  · obtain ⟨hplanned, hruns⟩ := h
    refine ⟨hsnapshot ▸ hplanned, ?_⟩
    rwa [inputTables_congr hlevels]

/-- A task that does not commit stands on its job, or on its plan. -/
theorem PcOk.transfer {pc : JobPc} (h : PcOk dir e slot pc) (hfree : pc.isCommitting = false)
    (hplanned : ∀ {snapshot plan}, slot = .compact → Planned snapshot plan e.snapshot.files →
      Planned snapshot plan e'.snapshot.files)
    (hjob : ∀ {job}, JobOk dir e slot job → JobOk dir' e' slot job) : PcOk dir' e' slot pc := by
  cases pc with
  | idle | unlinking => trivial
  | planned => exact ⟨h.1, hplanned h.1 h.2⟩
  | writing => exact hjob h
  | ready => exact ⟨hjob h.1, h.2⟩
  | committing => cases hfree

/-- The facts of a task survive what leaves the file set and its own files alone. -/
theorem PcOk.mono {pc : JobPc} (h : PcOk dir e slot pc) (hsnapshot : e'.snapshot = e.snapshot)
    (hlevels : e'.state.levels = e.state.levels)
    (hfrozen : ∀ f, e.state.frozen.getLast? = some f → e'.state.frozen.getLast? = some f)
    (htables : ∀ n ∈ pc.names, dir'.tables.lookup n = dir.tables.lookup n)
    (hpartials : ∀ n ∈ pc.names, dir'.partials.lookup n = dir.partials.lookup n)
    (hmanifest : pc.isCommitting = true →
      dir'.manifest = dir.manifest ∧ dir'.manifestTemp = dir.manifestTemp) :
    PcOk dir' e' slot pc := by
  have hjob :
      ∀ job : Job, pc.names = job.names → JobOk dir e slot job → JobOk dir' e' slot job := by
    intro job hnames hj
    have hcurrent : ∀ o ∈ job.current, o.number ∈ pc.names := by
      intro o ho
      rw [hnames, Job.names]
      exact List.mem_append_right _ (List.mem_map_of_mem (Option.mem_toList.mpr ho))
    refine ⟨hj.target.mono hsnapshot hlevels hfrozen, hj.names, hsnapshot ▸ hj.newest,
      hj.describes, fun t ht => ?_, fun o ho hphase => ?_, fun o ho hphase => ?_⟩
    · rw [htables]
      · exact hj.stored t ht
      · rw [hnames, Job.names]
        exact List.mem_append_left _ (List.mem_map_of_mem ht)
    · rw [hpartials _ (hcurrent o ho)]
      exact hj.finished o ho hphase
    · rw [htables _ (hcurrent o ho)]
      exact hj.renamed o ho hphase
  cases pc with
  | idle => trivial
  | planned snapshot plan => exact ⟨h.1, hsnapshot ▸ h.2⟩
  | writing job => exact hjob job rfl h
  | ready job lastSeq => exact ⟨hjob job rfl h.1, h.2⟩
  | committing job next phase =>
    obtain ⟨hj, hcomplete, hnext, hwritten, hrenamed⟩ := h
    obtain ⟨hm, hmt⟩ := hmanifest rfl
    exact ⟨hjob job rfl hj, hcomplete, hsnapshot ▸ hnext, hmt ▸ hwritten, hm ▸ hrenamed⟩
  | unlinking => trivial

theorem isCommitting_of_durableFree (h : e.durableFree = true) (slot : Slot) :
    (e.jobs slot).isCommitting = false := by
  unfold Engine.durableFree at h
  split at h
  · cases h
  · cases h
  · rename_i hflush hcompact
    cases slot
    · cases hpc : e.jobs .flush with
      | committing job next phase => exact absurd hpc (hflush job next phase)
      | _ => rfl
    · cases hpc : e.jobs .compact with
      | committing job next phase => exact absurd hpc (hcompact job next phase)
      | _ => rfl

theorem Dir.Loads.congr (h : dir'.manifest = dir.manifest) {snapshot : Snapshot} :
    dir'.Loads snapshot ↔ dir.Loads snapshot := by
  unfold Dir.Loads
  rw [h]

/-- What a sound manifest names is in the directory. -/
theorem Files.loads_mem (hi : Files dir e) {snapshot : Snapshot} (hl : dir.Loads snapshot)
    {f : FileMeta} (hf : f ∈ snapshot.files) : f.number ∈ dir.tables := by
  obtain ⟨snapshot', hl', levels, harr⟩ := hi.sound
  obtain rfl := hl.unique hl'
  obtain ⟨t, ht, rfl⟩ := harr.exists_table hf
  rw [← AList.lookup_isSome, harr.stored _ t ht]
  rfl

theorem Files.snapshot_mem (hi : Files dir e) {f : FileMeta} (hf : f ∈ e.snapshot.files) :
    f.number ∈ dir.tables := by
  obtain ⟨t, ht, rfl⟩ := hi.arranged.exists_table hf
  rw [← AList.lookup_isSome, hi.arranged.stored _ t ht]
  rfl

/-! ### Steps of a task on its own files -/

/-- **A task works on its own files**: nothing in the snapshot, in the manifest or of the other task
changes. -/
theorem Files.move (hi : Files dir e) (slot : Slot) (hsnapshot : e'.snapshot = e.snapshot)
    (hstate : e'.state = e.state) (hrotating : e'.rotating = e.rotating)
    (hnext : e.nextNumber ≤ e'.nextNumber)
    (hother : ∀ slot', slot' ≠ slot → e'.jobs slot' = e.jobs slot')
    (hmanifest : dir'.manifest = dir.manifest)
    (htemp : dir'.manifestTemp = dir.manifestTemp ∨ (e.jobs slot).isCommitting = true)
    (htables : ∀ n, n ∉ (e.jobs slot).names → dir'.tables.lookup n = dir.tables.lookup n)
    (hpartials : ∀ n, n ∉ (e.jobs slot).names → dir'.partials.lookup n = dir.partials.lookup n)
    (hnames : ∀ n ∈ (e'.jobs slot).names,
      n ∈ (e.jobs slot).names ∨ n = e.nextNumber ∧ n < e'.nextNumber)
    (hrenamed : (e.jobs slot).isRenamed = false
      ∨ (e'.jobs slot).names = [] ∧ dir'.tables = dir.tables)
    (hcommit : (e'.jobs slot).isCommitting = true →
      (e.jobs slot).isCommitting = true ∨ e.durableFree = true)
    (hjob : PcOk dir' e' slot (e'.jobs slot)) : Files dir' e' := by
  have hloads : ∀ {snapshot}, dir'.Loads snapshot ↔ dir.Loads snapshot := Dir.Loads.congr hmanifest
  -- the names of the manifest are not the task's
  have hdisk : ∀ snapshot, dir.Loads snapshot → ∀ f ∈ snapshot.files,
      dir'.tables.lookup f.number = dir.tables.lookup f.number := by
    intro snapshot hl f hf
    rcases hrenamed with hrenamed | ⟨-, heq⟩
    · exact htables _ fun hmem => hi.hidden slot hrenamed _ hmem snapshot hl f hf rfl
    · rw [heq]
  have hfresh : ∀ slot', ∀ n ∈ (e.jobs slot').names, n ≠ e.nextNumber :=
    fun slot' n hn => ((hi.owned slot' n hn).1).ne
  refine ⟨?_, ?_, ?_, hstate ▸ hi.frozen_ne, ?_, ?_, ?_, ?_, ?_, ?_⟩
  · rw [hsnapshot, hstate]
    exact hi.arranged.congr_dir fun f hf =>
      htables _ fun hmem => (hi.owned slot _ hmem).2 f hf rfl
  · obtain ⟨snapshot, hl, levels, harr⟩ := hi.sound
    exact ⟨snapshot, hloads.mpr hl, levels, harr.congr_dir (hdisk snapshot hl)⟩
  · intro n hn
    by_cases hmem : n ∈ (e.jobs slot).names
    · exact (hi.owned slot n hmem).1.trans_le hnext
    · rw [← AList.lookup_isSome, htables n hmem, AList.lookup_isSome] at hn
      exact (hi.tables_lt n hn).trans_le hnext
  · rw [hrotating, hstate]
    exact hi.rotating_ne
  · intro slot' n hn
    rw [hsnapshot]
    by_cases hslot : slot' = slot
    · subst hslot
      rcases hnames n hn with hn | ⟨rfl, hlt⟩
      · exact ⟨(hi.owned _ n hn).1.trans_le hnext, (hi.owned _ n hn).2⟩
      · exact ⟨hlt, fun f hf => (hi.tables_lt _ (hi.snapshot_mem hf)).ne⟩
    · rw [hother slot' hslot] at hn
      exact ⟨(hi.owned slot' n hn).1.trans_le hnext, (hi.owned slot' n hn).2⟩
  · intro slot₁ slot₂ hne n hn hn'
    by_cases h₁ : slot₁ = slot
    · subst h₁
      rw [hother slot₂ (Ne.symm hne)] at hn'
      rcases hnames n hn with hn | ⟨rfl, -⟩
      · exact hi.apart _ _ hne n hn hn'
      · exact hfresh slot₂ _ hn' rfl
    · rw [hother slot₁ h₁] at hn
      by_cases h₂ : slot₂ = slot
      · subst h₂
        rcases hnames n hn' with hn' | ⟨rfl, -⟩
        · exact hi.apart _ _ hne n hn hn'
        · exact hfresh slot₁ _ hn rfl
      · rw [hother slot₂ h₂] at hn'
        exact hi.apart _ _ hne n hn hn'
  · intro slot' hpc n hn snapshot hl f hf
    rw [hloads] at hl
    by_cases hslot : slot' = slot
    · subst hslot
      rcases hrenamed with hrenamed | ⟨hnil, -⟩
      · rcases hnames n hn with hn | ⟨rfl, -⟩
        · exact hi.hidden _ hrenamed n hn snapshot hl f hf
        · exact (hi.tables_lt _ (hi.loads_mem hl hf)).ne
      · rw [hnil] at hn
        cases hn
    · rw [hother slot' hslot] at hn hpc
      exact hi.hidden slot' hpc n hn snapshot hl f hf
  · intro slot₁ slot₂ hne h₁
    have hold : (e.jobs slot₁).isCommitting = true ∨ e.durableFree = true := by
      by_cases hslot : slot₁ = slot
      · subst hslot
        exact hcommit h₁
      · rw [hother slot₁ hslot] at h₁
        exact Or.inl h₁
    have hfree : (e.jobs slot₂).isCommitting = false := by
      rcases hold with h | h
      · exact hi.exclusive _ _ hne h
      · exact isCommitting_of_durableFree h slot₂
    by_cases hslot : slot₂ = slot
    · subst hslot
      cases hpc : (e'.jobs slot₂).isCommitting with
      | false => rfl
      | true =>
        rw [hother slot₁ hne] at h₁
        rcases hcommit hpc with h | h
        · rw [h] at hfree
          cases hfree
        · rw [isCommitting_of_durableFree h slot₁] at h₁
          cases h₁
    · rw [hother slot₂ hslot]
      exact hfree
  · intro slot'
    by_cases hslot : slot' = slot
    · subst hslot
      exact hjob
    · rw [hother slot' hslot]
      refine (hi.jobs slot').mono hsnapshot (by rw [hstate]) (by rw [hstate]; exact fun _ => id)
        (fun n hn => htables n (hi.apart _ _ hslot n hn))
        (fun n hn => hpartials n (hi.apart _ _ hslot n hn)) fun hpc => ⟨hmanifest, ?_⟩
      rcases htemp with htemp | htemp
      · exact htemp
      · rw [hi.exclusive _ _ hslot hpc] at htemp
        cases htemp

/-! ### Commits -/

/-- A complete flush has one output, the table of the memtable it was handed. -/
theorem JobOk.flush_output {job : Job} {frozen : Frozen} (hj : JobOk dir e slot job)
    (hc : job.Complete) (htarget : job.target = .flush frozen) : slot = .flush
      ∧ e.state.frozen.getLast? = some frozen
      ∧ ∃ t, job.outputs = [t] ∧ t.table.run = frozen.memtable.run := by
  have ht := hj.target
  rw [htarget, Job.runs, hc.1, hc.2] at ht
  cases slot with
  | compact => exact absurd ht id
  | flush =>
    obtain ⟨hlast, hruns⟩ := ht
    rw [Option.toList_none, List.map_nil, List.append_nil, List.append_nil] at hruns
    obtain ⟨t, htables, hrun⟩ := List.map_eq_singleton_iff.mp hruns
    exact ⟨rfl, hlast, t, htables, hrun⟩

/-- A complete compaction has the outputs of its merge. -/
theorem JobOk.merges {job : Job} {snapshot : Snapshot} {plan : Plan} (hj : JobOk dir e slot job)
    (hc : job.Complete) (htarget : job.target = .compact snapshot plan) : slot = .compact
      ∧ Planned snapshot plan e.snapshot.files ∧ Merges e.state snapshot plan job.outputs := by
  have ht := hj.target
  rw [htarget, Job.runs, hc.1, hc.2] at ht
  cases slot with
  | flush => exact absurd ht id
  | compact =>
    obtain ⟨hplanned, hruns⟩ := ht
    rw [Option.toList_none, List.map_nil, List.append_nil, List.append_nil] at hruns
    refine ⟨rfl, hplanned, hruns, fun t ht => (hj.describes t ht).1, fun t ht => ?_⟩
    rw [(hj.describes t ht).2, htarget]
    rfl

theorem Snapshot.files_change (snapshot : Snapshot) (added : List FileMeta) (removed : List ℕ)
    (lastSeq nextNumber : ℕ) : (snapshot.change added removed lastSeq nextNumber).files
      = snapshot.files.filter (fun f => f.number ∉ removed) ++ added := rfl

/-- **The snapshot a commit stores is arranged by the levels it publishes.** -/
theorem Files.published (hi : Files dir e) {job : Job} {next : Snapshot} {phase : CommitPhase}
    (hpc : e.jobs slot = .committing job next phase) :
    Arranged dir (job.target.publish job.outputs e.state).levels next.files := by
  have hjob := hi.jobs slot
  have howned := hi.owned slot
  rw [hpc] at hjob howned
  obtain ⟨hj, hc, ⟨lastSeq, nextNumber, rfl⟩, -, -⟩ := hjob
  have hout : ∀ t ∈ job.outputs, t.file.number ∈ job.names := fun t ht =>
    List.mem_append_left _ (List.mem_map_of_mem ht)
  rw [Snapshot.files_change]
  cases htarget : job.target with
  | flush frozen =>
    obtain ⟨rfl, hlast, t, houtputs, hrun⟩ := hj.flush_output hc htarget
    have ht : t ∈ job.outputs := by rw [houtputs]; exact List.mem_singleton_self t
    have hne := hi.frozen_ne frozen (List.mem_of_getLast? hlast)
    have hall : e.snapshot.files.filter (fun f => f.number ∉ (Target.flush frozen).removed)
        = e.snapshot.files := List.filter_eq_self.mpr fun f _ => by simp [Target.removed]
    rw [hall, houtputs]
    refine hi.arranged.flush ⟨(hj.describes t ht).1, hrun ▸ hne⟩ (hj.stored t ht) ?_
      (howned _ (hout t ht)).2 fun f hf hzero => hj.newest rfl f hf hzero _ (hout t ht)
    rw [(hj.describes t ht).2, htarget]
    rfl
  | compact snapshot plan =>
    obtain ⟨rfl, hplanned, hmerges⟩ := hj.merges hc htarget
    refine hplanned.arranged hi.arranged hmerges hj.stored ?_
    rw [List.map_append, List.map_map, List.nodup_append]
    refine ⟨hi.arranged.numbers, hj.names.sublist (List.sublist_append_left _ _), ?_⟩
    intro a ha b hb
    obtain ⟨f, hf, rfl⟩ := List.mem_map.mp ha
    obtain ⟨t, ht, rfl⟩ := List.mem_map.mp hb
    exact (howned _ (hout t ht)).2 f hf

/-- What a commit stores is in the snapshot or an output of the task. -/
theorem Files.mem_next (hi : Files dir e) {job : Job} {next : Snapshot} {phase : CommitPhase}
    (hpc : e.jobs slot = .committing job next phase) {f : FileMeta} (hf : f ∈ next.files) :
    (f ∈ e.snapshot.files ∧ f.number ∉ job.target.removed) ∨ f.number ∈ (e.jobs slot).names
      ∧ f.level = job.target.level := by
  have hjob := hi.jobs slot
  rw [hpc] at hjob ⊢
  obtain ⟨hj, -, ⟨lastSeq, nextNumber, rfl⟩, -, -⟩ := hjob
  rw [Snapshot.files_change] at hf
  rcases List.mem_append.mp hf with hf | hf
  · have := List.mem_filter.mp hf
    exact Or.inl ⟨this.1, by simpa using this.2⟩
  · obtain ⟨t, ht, rfl⟩ := List.mem_map.mp hf
    exact Or.inr ⟨List.mem_append_left _ (List.mem_map_of_mem ht), (hj.describes t ht).2⟩

/-- A commit does not name the files of the other task. -/
theorem Files.next_apart (hi : Files dir e) {job : Job} {next : Snapshot} {phase : CommitPhase}
    (hpc : e.jobs slot = .committing job next phase) {slot' : Slot} (hslot : slot' ≠ slot) :
    ∀ n ∈ (e.jobs slot').names, ∀ f ∈ next.files, f.number ≠ n := by
  intro n hn f hf heq
  rcases hi.mem_next hpc hf with ⟨hf, -⟩ | ⟨hmem, -⟩
  · exact (hi.owned slot' n hn).2 f hf heq
  · exact hi.apart _ _ hslot n hn (heq ▸ hmem)

/-- **The rename of the manifest** makes the set it stores the one on disk. -/
theorem Files.renameManifest (hi : Files dir e) {job : Job} {next : Snapshot}
    {content : Option Snapshot} (hpc : e.jobs slot = .committing job next .written)
    (hcontent : dir.manifestTemp = some content) :
    Files { dir with manifestTemp := none, manifest := some content }
      (e.setJob slot (.committing job next .renamed)) := by
  have hjob := hi.jobs slot
  have howned := hi.owned slot
  have hpub := hi.published hpc
  have hother : ∀ slot', slot' ≠ slot →
      (e.setJob slot (.committing job next .renamed)).jobs slot' = e.jobs slot' :=
    fun slot' => e.setJob_of_ne _
  have hself := e.setJob_self slot (.committing job next .renamed)
  rw [hpc] at hjob howned
  obtain ⟨hj, hc, hnext, hwritten, -⟩ := hjob
  obtain rfl : content = some next := Option.some.inj (hcontent.symm.trans (hwritten rfl))
  have hloads :
      ∀ snapshot, Dir.Loads { dir with manifestTemp := none, manifest := some (some next) }
      snapshot → snapshot = next := fun snapshot h => h.unique (Or.inl rfl)
  have hnames : ∀ slot', ((e.setJob slot (.committing job next .renamed)).jobs slot').names
      = (e.jobs slot').names := e.setJob_congr JobPc.names (by rw [hpc]; rfl)
  have hcommitting : ∀ slot', ((e.setJob slot (.committing job next .renamed)).jobs
      slot').isCommitting = (e.jobs slot').isCommitting :=
    e.setJob_congr JobPc.isCommitting (by rw [hpc]; rfl)
  refine { hi with
    arranged := hi.arranged.congr_dir fun _ _ => rfl
    sound := ⟨next, Or.inl rfl, _, hpub.congr_dir fun _ _ => rfl⟩
    owned := fun slot' n hn => hi.owned slot' n (hnames slot' ▸ hn)
    apart := fun slot₁ slot₂ hne n hn hn' =>
      hi.apart slot₁ slot₂ hne n (hnames slot₁ ▸ hn) (hnames slot₂ ▸ hn')
    hidden := ?_
    exclusive := fun slot₁ slot₂ hne h₁ => by
      rw [hcommitting] at h₁ ⊢
      exact hi.exclusive slot₁ slot₂ hne h₁
    jobs := ?_ }
  · intro slot' hrenamed n hn snapshot hl
    obtain rfl := hloads snapshot hl
    by_cases hslot : slot' = slot
    · subst hslot
      rw [hself] at hrenamed
      cases hrenamed
    · rw [hother slot' hslot] at hn
      exact hi.next_apart hpc hslot n hn
  · intro slot'
    by_cases hslot : slot' = slot
    · subst hslot
      rw [hself]
      have hj' : JobOk { dir with manifestTemp := none, manifest := some (some next) }
          (e.setJob slot' (.committing job next .renamed)) slot' job :=
        { hj with target := hj.target.mono rfl rfl fun _ => id }
      exact ⟨hj', hc, hnext, by simp, fun _ => rfl⟩
    · rw [hother slot' hslot]
      refine (hi.jobs slot').mono rfl rfl (fun _ => id) (fun _ _ => rfl)
        (fun _ _ => rfl) fun h => ?_
      have := hi.exclusive slot' slot hslot h
      rw [hpc] at this
      cases this

/-- A commit of one task leaves the other what it relies on. -/
theorem Files.pcOk_publish (hi : Files dir e) {job : Job} {next : Snapshot}
    (hpc : e.jobs slot = .committing job next .renamed) {slot' : Slot} (hslot : slot' ≠ slot)
    {e' : Engine} (hsnapshot : e'.snapshot = next)
    (hstate : e'.state = job.target.publish job.outputs e.state) :
    PcOk dir e' slot' (e.jobs slot') := by
  have hold := hi.jobs slot'
  have hpub := hi.published hpc
  have hfree := hi.exclusive slot slot' (Ne.symm hslot) (by rw [hpc]; rfl)
  have hmem := fun {f} => hi.mem_next hpc (f := f)
  have hjob := hi.jobs slot
  rw [hpc] at hjob
  obtain ⟨hj, hc, ⟨lastSeq, nextNumber, hnext⟩, -, -⟩ := hjob
  cases htarget : job.target with
  | flush frozen =>
    obtain ⟨rfl, hlast, t, houtputs, hrun⟩ := hj.flush_output hc htarget
    obtain rfl : slot' = .compact := by cases slot' <;> simp_all
    have ht : t ∈ job.outputs := by rw [houtputs]; exact List.mem_singleton_self t
    have hfiles : next.files = e.snapshot.files ++ [t.file] := by
      rw [hnext, Snapshot.files_change, houtputs, htarget, List.filter_eq_self.mpr]
      · rfl
      · intro f _
        simp [Target.removed]
    -- the file set grows by one newer file at level 0
    have hplanned : ∀ {snapshot plan}, Planned snapshot plan e.snapshot.files →
        Planned snapshot plan e'.snapshot.files := by
      intro snapshot plan hp
      refine ⟨hp.inputs, ?_⟩
      obtain ⟨added, hgrown, hadded⟩ := hp.grown
      refine ⟨added ++ [t.file], by rw [hsnapshot, hfiles, hgrown, List.append_assoc], ?_⟩
      intro f hf
      rcases List.mem_append.mp hf with hf | hf
      · exact hadded f hf
      · obtain rfl := List.mem_singleton.mp hf
        refine ⟨by rw [(hj.describes t ht).2, htarget]; rfl, fun g hg hzero => ?_⟩
        refine hj.newest rfl g (by rw [hgrown]; exact List.mem_append_left _ hg) hzero _ ?_
        exact List.mem_append_left _ (List.mem_map_of_mem ht)
    have hjob' : ∀ {job' : Job}, JobOk dir e .compact job' → JobOk dir e' .compact job' := by
      intro job' hj'
      refine { hj' with target := ?_, newest := fun h => by cases h }
      have ht' := hj'.target
      cases htarget' : job'.target with
      | flush frozen' =>
        rw [htarget'] at ht'
        exact absurd ht' id
      | compact snapshot plan =>
        rw [htarget'] at ht'
        obtain ⟨hp, hruns⟩ := ht'
        refine ⟨hplanned hp, ?_⟩
        rw [hstate]
        rwa [inputTables_eq hi.arranged hpub fun f hf => ⟨(hp.input_mem hf).1, by
          rw [hfiles]
          exact List.mem_append_left _ (hp.input_mem hf).1⟩]
    exact hold.transfer hfree (fun _ => hplanned) hjob'
  | compact snapshot plan =>
    obtain ⟨rfl, -, -⟩ := hj.merges hc htarget
    obtain rfl : slot' = .flush := by cases slot' <;> simp_all
    have hjob' : ∀ {job' : Job}, JobOk dir e .flush job' → JobOk dir e' .flush job' := by
      intro job' hj'
      refine { hj' with target := ?_, newest := fun _ f hf hzero => ?_ }
      · have ht' := hj'.target
        cases htarget' : job'.target with
        | compact snapshot' plan' =>
          rw [htarget'] at ht'
          exact absurd ht' id
        | flush frozen =>
          rw [htarget'] at ht'
          refine ⟨?_, ht'.2⟩
          rw [hstate, htarget]
          exact ht'.1
      · rw [hsnapshot] at hf
        rcases hmem hf with ⟨hf, -⟩ | ⟨-, hlevel⟩
        · exact hj'.newest rfl f hf hzero
        · rw [htarget, hzero] at hlevel
          cases hlevel
    exact hold.transfer hfree (fun hslot => by cases hslot) hjob'

/-- **The end of a commit** publishes what the manifest has stored. -/
theorem Files.publish (hi : Files dir e) {job : Job} {next : Snapshot}
    (hpc : e.jobs slot = .committing job next .renamed) :
    Files dir { e.setJob slot (.unlinking job.target job.target.unlinks) with
      snapshot := next, state := job.target.publish job.outputs e.state } := by
  set e' : Engine := { e.setJob slot (.unlinking job.target job.target.unlinks) with
    snapshot := next, state := job.target.publish job.outputs e.state } with he'
  have hother : ∀ slot', slot' ≠ slot → e'.jobs slot' = e.jobs slot' :=
    fun slot' => e.setJob_of_ne _
  have hself : e'.jobs slot = .unlinking job.target job.target.unlinks := e.setJob_self ..
  have hmanifest : dir.manifest = some (some next) := by
    have := hi.jobs slot
    rw [hpc] at this
    exact this.2.2.2.2 rfl
  -- the tables left to remove are inputs, which the new set does not name
  have hleft : ∀ n ∈ (e'.jobs slot).names,
      (∃ f ∈ e.snapshot.files, f.number = n) ∧ ∀ f ∈ next.files, f.number ≠ n := by
    intro n hn
    have hmem : ∀ {f}, f ∈ next.files → _ := fun {f} => hi.mem_next hpc (f := f)
    have howned := hi.owned slot
    have hjob := hi.jobs slot
    rw [hpc] at hjob
    rw [hself] at hn
    cases htarget : job.target with
    | flush frozen =>
      rw [htarget] at hn
      cases hn
    | compact snapshot plan =>
      rw [htarget] at hn
      obtain ⟨f, hf, rfl⟩ := List.mem_map.mp hn
      obtain ⟨-, hplanned, -⟩ := hjob.1.merges hjob.2.1 htarget
      have hfile := (hplanned.input_mem hf).1
      refine ⟨⟨f, hfile, rfl⟩, fun g hg heq => ?_⟩
      rcases hmem hg with ⟨-, hkept⟩ | ⟨hg, -⟩
      · rw [heq, htarget] at hkept
        exact hkept hn
      · exact (howned _ hg).2 f hfile heq.symm
  refine ⟨hi.published hpc, hi.sound, hi.tables_lt, ?_, ?_, ?_, ?_, ?_, ?_, ?_⟩
  · intro f hf
    exact hi.frozen_ne f (Target.mem_frozen_of_publish hf)
  · intro hrotating
    have hactive : e'.state.active = e.state.active := by
      rw [he']
      cases job.target <;> rfl
    rw [hactive]
    exact hi.rotating_ne hrotating
  · intro slot' n hn
    by_cases hslot : slot' = slot
    · subst hslot
      obtain ⟨⟨f, hf, rfl⟩, hnew⟩ := hleft n hn
      exact ⟨hi.tables_lt _ (hi.snapshot_mem hf), hnew⟩
    · rw [hother slot' hslot] at hn
      exact ⟨(hi.owned slot' n hn).1, hi.next_apart hpc hslot n hn⟩
  · have hapart : ∀ slot', slot' ≠ slot → ∀ n ∈ (e.jobs slot').names, n ∉ (e'.jobs slot).names := by
      intro slot' hslot n hn hn'
      obtain ⟨⟨f, hf, heq⟩, -⟩ := hleft n hn'
      exact (hi.owned slot' n hn).2 f hf heq
    intro slot₁ slot₂ hne n hn hn'
    by_cases h₁ : slot₁ = slot
    · subst h₁
      rw [hother slot₂ (Ne.symm hne)] at hn'
      exact hapart slot₂ (Ne.symm hne) n hn' hn
    · rw [hother slot₁ h₁] at hn
      by_cases h₂ : slot₂ = slot
      · subst h₂
        exact hapart slot₁ h₁ n hn hn'
      · rw [hother slot₂ h₂] at hn'
        exact hi.apart _ _ hne n hn hn'
  · intro slot' hrenamed n hn snapshot hl
    by_cases hslot : slot' = slot
    · subst hslot
      obtain rfl := hl.unique (Or.inl hmanifest)
      exact (hleft n hn).2
    · rw [hother slot' hslot] at hn hrenamed
      exact hi.hidden slot' hrenamed n hn snapshot hl
  · intro slot₁ slot₂ hne h₁
    by_cases hslot : slot₁ = slot
    · subst hslot
      rw [hself] at h₁
      cases h₁
    · rw [hother slot₁ hslot] at h₁
      have := hi.exclusive slot₁ slot hslot h₁
      rw [hpc] at this
      cases this
  · intro slot'
    by_cases hslot : slot' = slot
    · subst hslot
      rw [hself]
      trivial
    · rw [hother slot' hslot]
      exact hi.pcOk_publish hpc hslot rfl rfl

/-! ### Every step -/

/-- A task moves on without touching the directory. -/
theorem Files.goto (hi : Files dir e) {pc : JobPc}
    (hnames : ∀ n ∈ pc.names, n ∈ (e.jobs slot).names)
    (hrenamed : (e.jobs slot).isRenamed = false ∨ pc.names = [])
    (hcommit : pc.isCommitting = true → (e.jobs slot).isCommitting = true ∨ e.durableFree = true)
    (hjob : PcOk dir (e.setJob slot pc) slot pc) : Files dir (e.setJob slot pc) := by
  have hself := e.setJob_self slot pc
  refine hi.move slot rfl rfl rfl le_rfl (fun _ => e.setJob_of_ne pc) rfl (Or.inl rfl)
    (fun _ _ => rfl) (fun _ _ => rfl) ?_ ?_ ?_ ?_
  · rw [hself]
    exact fun n hn => Or.inl (hnames n hn)
  · rw [hself]
    exact hrenamed.imp_right fun h => ⟨h, rfl⟩
  · rw [hself]
    exact hcommit
  · rw [hself]
    exact hjob

/-- A task ends where it stands. -/
theorem Files.stop (hi : Files dir e) (slot : Slot) : Files dir (e.setJob slot .idle) :=
  hi.goto (fun _ hn => by cases hn) (Or.inr rfl) (fun h => by cases h) trivial

/-- Clients, the log and rotations leave the file set alone. -/
theorem Files.logSide (hi : Files dir e) (hside : Engine.LogSide dir dir' e e')
    (hfrozen : ∀ f ∈ e'.state.frozen, f.memtable.run.entries ≠ [])
    (hrotating : e'.rotating ≠ none → e'.state.active.run.entries ≠ []) : Files dir' e' := by
  have hloads : ∀ {snapshot}, dir'.Loads snapshot ↔ dir.Loads snapshot :=
    Dir.Loads.congr hside.manifest
  have htables : ∀ n, dir'.tables.lookup n = dir.tables.lookup n := fun n => by rw [hside.tables]
  refine ⟨?_, ?_, ?_, hfrozen, hrotating, ?_, hside.jobs ▸ hi.apart, ?_, hside.jobs ▸ hi.exclusive,
    ?_⟩
  · rw [hside.snapshot, hside.levels]
    exact hi.arranged.congr_dir fun _ _ => htables _
  · obtain ⟨snapshot, hl, levels, harr⟩ := hi.sound
    exact ⟨snapshot, hloads.mpr hl, levels, harr.congr_dir fun _ _ => htables _⟩
  · rw [hside.tables]
    exact fun n hn => (hi.tables_lt n hn).trans_le hside.nextNumber
  · rw [hside.jobs, hside.snapshot]
    exact fun slot n hn =>
      ⟨(hi.owned slot n hn).1.trans_le hside.nextNumber, (hi.owned slot n hn).2⟩
  · rw [hside.jobs]
    exact fun slot h n hn snapshot hl => hi.hidden slot h n hn snapshot (hloads.mp hl)
  · intro slot
    rw [hside.jobs]
    refine (hi.jobs slot).mono hside.snapshot hside.levels (fun f hf => ?_) (fun n _ => htables n)
      (fun n _ => by rw [hside.partials]) fun _ => ⟨hside.manifest, hside.manifestTemp⟩
    obtain ⟨newer, hnewer⟩ := hside.frozen
    rw [← hnewer, List.getLast?_append, hf, Option.some_or]

theorem insert_ne_nil (m : Memtable) (entry : Entry) : (m.insert entry).1.run.entries ≠ [] := by
  have hfind := Run.find_add m.run entry entry.key
  rw [if_pos rfl, ← Memtable.run_insert] at hfind
  intro hnil
  have hnone : (m.insert entry).1.run.find entry.key = none := by
    rw [Run.find_eq_none_iff, hnil]
    simp
  rw [hnone] at hfind
  cases hold : m.run.find entry.key with
  | none =>
    rw [hold] at hfind
    cases hfind
  | some v =>
    rw [hold, Version.later] at hfind
    split_ifs at hfind

theorem isEmpty_eq_false {m : Memtable} (h : m.isEmpty = false) : m.run.entries ≠ [] := by
  intro hnil
  rw [Memtable.isEmpty, hnil] at h
  cases h

theorem Files.log_step (hi : Files dir e) {action : Action} (h : Engine.Moves dir e action dir' e')
    (hslot : action.slot = none) : Files dir' e' := by
  refine hi.logSide (h.logSide hslot) ?_ ?_
  · cases h with
    | rotateSwap hrotating =>
      intro f hf
      rcases List.mem_cons.mp hf with rfl | hf
      · exact hi.rotating_ne (by rw [hrotating]; simp)
      · exact hi.frozen_ne f hf
    | write | sync | wal | insert | leave | rotateNot | rotate | rotateWrite | rotateFail | oldWal
    | dropLog => exact hi.frozen_ne
    | _ => cases hslot
  · cases h with
    | insert => exact fun _ => insert_ne_nil _ _
    | rotate _ _ hactive => exact fun _ => isEmpty_eq_false hactive
    | rotateSwap => exact fun h => absurd rfl h
    | rotateFail => exact fun h => absurd rfl h
    | write | sync | wal | leave | rotateNot | rotateWrite | oldWal | dropLog =>
        exact hi.rotating_ne
    | _ => cases hslot

/-- An output of a task that goes from one phase to the next, changing its own files only. -/
theorem Files.output_step (hi : Files dir e) {target : Target} {todo : List (Run Bytes Bytes)}
    {outputs : List Table} {number : ℕ} {run : Run Bytes Bytes} {phase phase' : Phase}
    (hpc : e.jobs slot = .writing ⟨target, todo, some ⟨number, run, phase⟩, outputs⟩)
    (hmanifest : dir'.manifest = dir.manifest) (htemp : dir'.manifestTemp = dir.manifestTemp)
    (htables : ∀ n, n ≠ number → dir'.tables.lookup n = dir.tables.lookup n)
    (hpartials : ∀ n, n ≠ number → dir'.partials.lookup n = dir.partials.lookup n)
    (hfinished : phase' = .finished →
      dir'.partials.lookup number = some (some (SsTable.write run)))
    (hrenamed : phase' = .renamed → dir'.tables.lookup number = some (some (SsTable.write run))) :
    Files dir' (e.setJob slot (.writing ⟨target, todo, some ⟨number, run, phase'⟩, outputs⟩)) := by
  have hself := e.setJob_self slot
    (.writing ⟨target, todo, some ⟨number, run, phase'⟩, outputs⟩)
  have hj := hi.jobs slot
  rw [hpc] at hj
  have hmem : number ∈ (e.jobs slot).names := by
    rw [hpc]
    exact List.mem_append_right _ (List.mem_singleton_self number)
  have hnodup : (outputs.map (fun t => t.file.number) ++ [number]).Nodup := hj.names
  refine hi.move slot rfl rfl rfl le_rfl (fun _ => e.setJob_of_ne _) hmanifest (Or.inl htemp)
    (fun n hn => htables n fun heq => hn (heq ▸ hmem))
    (fun n hn => hpartials n fun heq => hn (heq ▸ hmem)) ?_ ?_ ?_ ?_
  · rw [hself, hpc]
    exact fun n hn => Or.inl hn
  · rw [hpc]
    exact Or.inl rfl
  · rw [hself]
    exact fun h => by cases h
  · rw [hself]
    refine { hj with
      target := hj.target.mono rfl rfl fun _ => id
      stored := fun t ht => ?_
      finished := fun o ho hphase => ?_
      renamed := fun o ho hphase => ?_ }
    · rw [htables _ fun heq => ?_]
      · exact hj.stored t ht
      · exact (List.nodup_append.mp hnodup).2.2 _ (List.mem_map_of_mem ht) number
          (List.mem_singleton_self number) heq
    · obtain rfl := Option.some.inj ho
      exact hfinished hphase
    · obtain rfl := Option.some.inj ho
      exact hrenamed hphase

/-- A task that holds the durable state writes the temporary manifest. -/
theorem Files.temp_step (hi : Files dir e) {job : Job} {next : Snapshot}
    {phase phase' : CommitPhase}
    {content : Option Snapshot} (hpc : e.jobs slot = .committing job next phase)
    (hphase : phase ≠ .renamed) (hphase' : phase' ≠ .renamed)
    (hwritten : phase' = .written → content = some next) :
    Files { dir with manifestTemp := some content }
      (e.setJob slot (.committing job next phase')) := by
  have hself := e.setJob_self slot (.committing job next phase')
  have hj := hi.jobs slot
  rw [hpc] at hj
  refine hi.move slot rfl rfl rfl le_rfl (fun _ => e.setJob_of_ne _) rfl
    (Or.inr (by rw [hpc]; rfl)) (fun _ _ => rfl) (fun _ _ => rfl) ?_ ?_ ?_ ?_
  · rw [hself, hpc]
    exact fun n hn => Or.inl hn
  · rw [hpc]
    left
    cases phase <;> first | rfl | exact absurd rfl hphase
  · rw [hpc]
    exact fun _ => Or.inl rfl
  · rw [hself]
    refine ⟨{ hj.1 with target := hj.1.target.mono rfl rfl fun _ => id }, hj.2.1, hj.2.2.1,
      fun h => ?_, fun h => absurd h hphase'⟩
    rw [hwritten h]

/-- An output takes the next number. -/
theorem Files.alloc_step (hi : Files dir e) {target : Target} {run : Run Bytes Bytes}
    {todo : List (Run Bytes Bytes)} {outputs : List Table}
    (hpc : e.jobs slot = .writing ⟨target, run :: todo, none, outputs⟩) :
    Files dir
      { e.setJob slot (.writing ⟨target, todo, some ⟨e.nextNumber, run, .allocated⟩, outputs⟩)
        with nextNumber := e.nextNumber + 1 } := by
  have hself := e.setJob_self slot
    (.writing ⟨target, todo, some ⟨e.nextNumber, run, .allocated⟩, outputs⟩)
  have hj := hi.jobs slot
  have howned := hi.owned slot
  rw [hpc] at hj howned
  have hnames : Job.names ⟨target, todo, some ⟨e.nextNumber, run, .allocated⟩, outputs⟩
      = Job.names ⟨target, run :: todo, none, outputs⟩ ++ [e.nextNumber] := by
    simp [Job.names]
  refine hi.move slot rfl rfl rfl (Nat.le_succ _) (fun _ => e.setJob_of_ne _) rfl (Or.inl rfl)
    (fun _ _ => rfl) (fun _ _ => rfl) ?_ ?_ ?_ ?_
  · intro n hn
    change n ∈ ((e.setJob slot _).jobs slot).names at hn
    rw [hself] at hn
    change n ∈ Job.names _ at hn
    rw [hnames, List.mem_append, List.mem_singleton] at hn
    rw [hpc]
    exact hn.imp_right fun h => ⟨h, h ▸ Nat.lt_succ_self _⟩
  · rw [hpc]
    exact Or.inl rfl
  · intro h
    change ((e.setJob slot _).jobs slot).isCommitting = true at h
    rw [hself] at h
    cases h
  · change PcOk dir _ slot ((e.setJob slot _).jobs slot)
    rw [hself]
    refine ⟨?_, ?_, ?_, hj.describes, hj.stored, ?_, ?_⟩
    · exact hj.target.mono rfl rfl fun _ => id
    · rw [hnames, List.nodup_append]
      refine ⟨hj.names, List.nodup_singleton _, fun a ha b hb => ?_⟩
      rw [List.mem_singleton.mp hb]
      exact (howned a ha).1.ne
    · intro hslot f hf hzero n hn
      rw [hnames, List.mem_append, List.mem_singleton] at hn
      rcases hn with hn | rfl
      · exact hj.newest hslot f hf hzero n hn
      · exact hi.tables_lt _ (hi.snapshot_mem hf)
    · intro o ho hphase
      obtain rfl := Option.some.inj ho
      cases hphase
    · intro o ho hphase
      obtain rfl := Option.some.inj ho
      cases hphase

/-- A task that has written nothing yet. -/
theorem jobOk_start {target : Target} {todo : List (Run Bytes Bytes)}
    (h : TargetOk e slot target todo) : JobOk dir e slot ⟨target, todo, none, []⟩ where
  target := h
  names := List.nodup_nil
  newest := fun _ _ _ _ _ hn => absurd hn List.not_mem_nil
  describes := fun _ ht => absurd ht List.not_mem_nil
  stored := fun _ ht => absurd ht List.not_mem_nil
  finished := fun _ ho => by cases ho
  renamed := fun _ ho => by cases ho

/-- The table of an output is opened. -/
theorem JobOk.openOutput {target : Target} {todo : List (Run Bytes Bytes)} {outputs : List Table}
    {number : ℕ} {run : Run Bytes Bytes}
    (hj : JobOk dir e slot ⟨target, todo, some ⟨number, run, .renamed⟩, outputs⟩) :
    JobOk dir e slot ⟨target, todo, none, outputs
      ++ [⟨FileMeta.metaOf number target.level (SsTable.write run), SsTable.write run⟩]⟩ := by
  have hnames : Job.names ⟨target, todo, none, outputs
      ++ [⟨FileMeta.metaOf number target.level (SsTable.write run), SsTable.write run⟩]⟩
      = Job.names ⟨target, todo, some ⟨number, run, .renamed⟩, outputs⟩ := by
    simp [Job.names, FileMeta.metaOf]
  have hruns : Job.runs ⟨target, todo, none, outputs
      ++ [⟨FileMeta.metaOf number target.level (SsTable.write run), SsTable.write run⟩]⟩
      = Job.runs ⟨target, todo, some ⟨number, run, .renamed⟩, outputs⟩ := by
    simp [Job.runs, SsTable.write]
  refine ⟨?_, ?_, ?_, fun t ht => ?_, fun t ht => ?_, (fun o ho => by cases ho),
    (fun o ho => by cases ho)⟩
  · rw [hruns]
    exact hj.target
  · rw [hnames]
    exact hj.names
  · rw [hnames]
    exact hj.newest
  · rcases List.mem_append.mp ht with ht | ht
    · exact hj.describes t ht
    · obtain rfl := List.mem_singleton.mp ht
      exact ⟨FileMeta.describes_metaOf _ _ _, rfl⟩
  · rcases List.mem_append.mp ht with ht | ht
    · exact hj.stored t ht
    · obtain rfl := List.mem_singleton.mp ht
      exact hj.renamed _ rfl rfl

theorem JobOk.setJob {job : Job} (hj : JobOk dir e slot job) (slot' : Slot) (pc : JobPc) :
    JobOk dir (e.setJob slot' pc) slot job :=
  { hj with target := hj.target.mono rfl rfl fun _ => id }

/-- **Every step of an open store keeps the file set**, whatever fails. -/
theorem Files.step (hi : Files dir e) {action : Action} (h : Engine.Moves dir e action dir' e') :
    Files dir' e' := by
  cases hslot : action.slot with
  | none => exact hi.log_step h hslot
  | some slot =>
    cases h with
    | write | sync | wal | insert | leave | rotateNot | rotate | rotateWrite | rotateSwap
    | rotateFail | oldWal | dropLog => cases hslot
    | planNot => exact hi
    | take hpc _ hfrozen =>
      refine hi.goto (fun n hn => by cases hn) (Or.inr rfl) (fun h => by cases h) (jobOk_start ?_)
      exact ⟨hfrozen, rfl⟩
    | plan hpc _ hinputs =>
      exact hi.goto (fun n hn => by cases hn) (Or.inr rfl) (fun h => by cases h)
        ⟨rfl, Planned.refl hinputs⟩
    | abandon => exact hi.stop .compact
    | @find snapshot plan hpc _ =>
      have hplanned := hi.jobs .compact
      rw [hpc] at hplanned
      refine hi.goto (fun n hn => by cases hn) (Or.inr rfl) (fun h => by cases h) (jobOk_start ?_)
      exact ⟨hplanned.2, _, rfl⟩
    | alloc hpc => exact hi.alloc_step hpc
    | create hpc =>
      exact hi.output_step hpc rfl rfl (fun _ _ => rfl) (fun n hn => AList.lookup_insert_ne hn)
        (by simp) (by simp)
    | finish hpc =>
      exact hi.output_step hpc rfl rfl (fun _ _ => rfl) (fun n hn => AList.lookup_insert_ne hn)
        (fun _ => AList.lookup_insert _) (by simp)
    | @rename slot target run number todo outputs content hpc hcontent =>
      have hj := hi.jobs slot
      rw [hpc] at hj
      have hwritten := hj.finished _ rfl rfl
      obtain rfl : content = some (SsTable.write run) :=
        Option.some.inj (hcontent.symm.trans hwritten)
      exact hi.output_step hpc rfl rfl (fun n hn => AList.lookup_insert_ne hn)
        (fun n hn => AList.lookup_erase_ne hn) (by simp) (fun _ => AList.lookup_insert _)
    | @openOutput slot target run number todo outputs table hpc htable =>
      have hj := hi.jobs slot
      rw [hpc] at hj
      have hwritten := hj.renamed _ rfl rfl
      obtain rfl : table = SsTable.write run :=
        Option.some.inj (Option.some.inj (htable.symm.trans hwritten))
      refine hi.goto (fun n hn => ?_) (Or.inl (by rw [hpc]; rfl)) (fun h => by cases h)
        (hj.openOutput.setJob slot _)
      rw [hpc]
      simpa [JobPc.names, Job.names, FileMeta.metaOf] using hn
    | @ready slot target outputs hpc =>
      have hj := hi.jobs slot
      rw [hpc] at hj
      refine hi.goto (fun n hn => by rwa [hpc]) (Or.inl (by rw [hpc]; rfl)) (fun h => by cases h) ?_
      exact ⟨hj.setJob slot _, rfl, rfl⟩
    | @lock slot job lastSeq hpc hfree =>
      have hj := hi.jobs slot
      rw [hpc] at hj
      refine hi.goto (fun n hn => by rwa [hpc]) (Or.inl (by rw [hpc]; rfl))
        (fun _ => Or.inr hfree) ?_
      exact ⟨hj.1.setJob slot _, hj.2, ⟨_, _, rfl⟩, by simp, by simp⟩
    | createManifest hpc => exact hi.temp_step hpc (by simp) (by simp) (by simp)
    | writeManifest hpc => exact hi.temp_step hpc (by simp) (by simp) (by simp)
    | renameManifest hpc hcontent => exact hi.renameManifest hpc hcontent
    | publish hpc => exact hi.publish hpc
    | @unlinkLog slot frozen number rest hpc =>
      have hself := e.setJob_self slot (.unlinking (.flush frozen) rest)
      refine hi.move slot rfl rfl rfl le_rfl (fun _ => e.setJob_of_ne _) rfl (Or.inl rfl)
        (fun _ _ => rfl) (fun _ _ => rfl) ?_ (Or.inl (by rw [hpc]; rfl)) ?_ ?_ <;> rw [hself]
      · exact fun n hn => by cases hn
      · exact fun h => by cases h
      · trivial
    | @unlinkTable slot snapshot plan number rest hpc =>
      have hself := e.setJob_self slot (.unlinking (.compact snapshot plan) rest)
      refine hi.move slot rfl rfl rfl le_rfl (fun _ => e.setJob_of_ne _) rfl (Or.inl rfl)
        (fun n hn => ?_) (fun _ _ => rfl) ?_ (Or.inl (by rw [hpc]; rfl)) ?_ ?_
      · refine AList.lookup_erase_ne fun heq => hn ?_
        rw [hpc, heq]
        exact List.mem_cons_self
      · rw [hself, hpc]
        exact fun n hn => Or.inl (List.mem_cons_of_mem _ hn)
      · rw [hself]
        exact fun h => by cases h
      · rw [hself]
        trivial
    | @done slot target hpc =>
      have hidle : Files dir (e.setJob slot .idle) := hi.stop slot
      exact { hidle with
        jobs := fun slot' => (hidle.jobs slot').mono rfl rfl (fun _ => id) (fun _ _ => rfl)
          (fun _ _ => rfl) fun _ => ⟨rfl, rfl⟩ }
    | fail => exact hi.stop _

end

end Lsmkv
