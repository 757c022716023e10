import Lsmkv.Engine.Core
import Lsmkv.Engine.Levels

/-!
# What a commit does to the levels

A flush puts its table in front of level 0 (`Arranged.flush`, `levelChain_flush`).  A compaction
takes its inputs out and sorts its outputs into the level below.  It keeps the files arranged
(`Planned.arranged`): a file of that level which stays lies wholly below or wholly above every
input, because it meets neither the range of the files drained nor the files that do.  And it keeps
every answer (`Planned.shrinks`): of the versions of a key that the inputs hold, which stand in a
row in the search order, it leaves the first, or none if that is a tombstone with nothing below it.

`Planned snapshot plan files` is what a compaction can rely on at its commit although flushes
committed since its plan: the file set has only grown by newer files at level 0.
-/

namespace Lsmkv

open State Compaction

/-- The plan was made from `snapshot`, to which level 0 files have been added since. -/
structure Planned (snapshot : Snapshot) (plan : Plan) (files : List FileMeta) : Prop where
  inputs : plan.inputs = inputsFor snapshot plan.level
  grown : ∃ added, files = snapshot.files ++ added ∧ ∀ f ∈ added, f.level = 0
    ∧ ∀ g ∈ snapshot.files, g.level = 0 → g.number < f.number

/-- When no element of a part is followed by one of the rest that has an image too, the images of
the rest come first. -/
theorem filterMap_split {α β : Type*} {f : α → Option β} {p : α → Bool} {l : List α}
    (h : l.Pairwise fun a b => p a = true → p b = false → f a = none ∨ f b = none) :
    l.filterMap f = (l.filter fun a => !p a).filterMap f ++ (l.filter p).filterMap f := by
  induction h with
  | nil => rfl
  | @cons a l hfirst _ ih =>
    cases hp : p a with
    | false =>
      rw [List.filter_cons_of_pos (by simp [hp]), List.filter_cons_of_neg (by simp [hp])]
      cases hf : f a with
      | none => rw [List.filterMap_cons_none hf, List.filterMap_cons_none hf, ih]
      | some b => rw [List.filterMap_cons_some hf, List.filterMap_cons_some hf, ih,
          List.cons_append]
    | true =>
      rw [List.filter_cons_of_neg (by simp [hp]), List.filter_cons_of_pos hp]
      cases hf : f a with
      | none => rw [List.filterMap_cons_none hf, List.filterMap_cons_none hf, ih]
      | some b =>
        have hrest : (l.filter fun a => !p a).filterMap f = [] := by
          rw [List.filterMap_eq_nil_iff]
          intro c hc
          obtain ⟨hcl, hpc⟩ := List.mem_filter.mp hc
          rcases hfirst c hcl hp (by simpa using hpc) with h | h
          · rw [hf] at h
            cases h
          · exact h
        rw [List.filterMap_cons_some hf, List.filterMap_cons_some hf, ih, hrest, List.nil_append,
          List.nil_append]

theorem eq_toList_of_perm {α : Type*} {o : Option α} {l : List α} (h : l.Perm o.toList) :
    l = o.toList := by
  cases o with
  | none => exact h.eq_nil
  | some a => exact List.perm_singleton.mp h

/-! ### Flushes -/

section

variable {dir : Dir} {levels : List (List Table)} {files : List FileMeta}

/-- A newer table in front of level 0. -/
theorem Arranged.flush (h : Arranged dir levels files) {t : Table} (ht : t.Sound)
    (hstored : dir.tables.lookup t.file.number = some (some t.table)) (hlevel : t.file.level = 0)
    (hnew : ∀ f ∈ files, f.number ≠ t.file.number)
    (hnewer : ∀ f ∈ files, f.level = 0 → f.number < t.file.number) :
    Arranged dir (levels.modify 0 ([t] ++ ·)) (files ++ [t.file]) := by
  have hpos : 0 < levels.length := List.length_pos_iff.mpr h.levels_ne
  have hzero : levelAt (levels.modify 0 ([t] ++ ·)) 0 = t :: levelAt levels 0 := by
    rw [levelAt_modify, if_pos ⟨rfl, hpos⟩]
    rfl
  have hdeep : ∀ i, i ≠ 0 → levelAt (levels.modify 0 ([t] ++ ·)) i = levelAt levels i := by
    intro i hi
    rw [levelAt_modify, if_neg (by simp [Ne.symm hi])]
  have hmem : ∀ i, ∀ u ∈ levelAt (levels.modify 0 ([t] ++ ·)) i, u = t ∨ u ∈ levelAt levels i := by
    intro i u hu
    by_cases hi : i = 0
    · subst hi
      rw [hzero] at hu
      exact List.mem_cons.mp hu
    · rw [hdeep i hi] at hu
      exact Or.inr hu
  refine ⟨?_, ?_, ?_, ?_, ?_, ?_, ?_⟩
  · rw [← List.length_pos_iff, List.length_modify]
    exact hpos
  · rw [List.map_append, List.nodup_append]
    refine ⟨h.numbers, List.nodup_singleton _, ?_⟩
    intro a ha b hb
    obtain ⟨f, hf, rfl⟩ := List.mem_map.mp ha
    rw [List.map_cons, List.map_nil, List.mem_singleton] at hb
    exact hb ▸ hnew f hf
  · intro i
    rw [List.filter_append]
    by_cases hi : i = 0
    · subst hi
      rw [hzero, List.map_cons, List.filter_cons_of_pos (by simpa using hlevel), List.filter_nil]
      -- the level takes the table in front and the manifest behind
      exact ((h.perm 0).cons t.file).trans (List.perm_append_singleton _ _).symm
    · rw [hdeep i hi, List.filter_cons_of_neg (by simpa [hlevel] using Ne.symm hi), List.filter_nil,
        List.append_nil]
      exact h.perm i
  · rw [hzero, List.pairwise_cons]
    refine ⟨fun u hu => ?_, h.newest⟩
    obtain ⟨hfile, hzero⟩ := h.file_mem hu
    exact hnewer u.file hfile hzero
  · intro i hi
    rw [hdeep i hi]
    exact h.sorted i hi
  · intro i u hu
    rcases hmem i u hu with rfl | hu
    · exact ht
    · exact h.sound i u hu
  · intro i u hu
    rcases hmem i u hu with rfl | hu
    · exact hstored
    · exact h.stored i u hu

/-- The versions of the new table are met first. -/
theorem levelChain_flush (hlevels : levels ≠ []) (t : Table) (key : Bytes) :
    levelChain (levels.modify 0 ([t] ++ ·)) key
      = (t.table.run.find key).toList ++ levelChain levels key := by
  cases levels with
  | nil => exact absurd rfl hlevels
  | cons level rest =>
    cases hfind : t.table.run.find key <;> simp [levelChain, hfind]

/-! ### Taking files out and putting files in -/

theorem levelAt_remove (s : State) (numbers : List ℕ) (i : ℕ) :
    levelAt (s.remove numbers).levels i
      = (levelAt s.levels i).filter fun t => t.file.number ∉ numbers := levelAt_map s.levels _ i

theorem levelAt_insert_self (s : State) (level : ℕ) (tables : List Table) :
    levelAt (s.insert level tables).levels level = (levelAt s.levels level ++ tables).insertionSort
      fun l r => l.file.minKey ≤ r.file.minKey := by
  have hlength : level < (s.levels ++ List.replicate (level + 1 - s.levels.length) []).length := by
    rw [List.length_append, List.length_replicate]
    omega
  rw [State.insert]
  dsimp only
  rw [levelAt_modify, if_pos ⟨rfl, hlength⟩, levelAt_append_replicate]

theorem levelAt_insert_of_ne (s : State) {level i : ℕ} (tables : List Table) (hi : i ≠ level) :
    levelAt (s.insert level tables).levels i = levelAt s.levels i := by
  rw [State.insert]
  dsimp only
  rw [levelAt_modify, if_neg (by simp [Ne.symm hi]), levelAt_append_replicate]

theorem Arranged.remove (s : State) (h : Arranged dir s.levels files) (numbers : List ℕ) :
    Arranged dir (s.remove numbers).levels (files.filter fun f => f.number ∉ numbers) := by
  have hat := levelAt_remove s numbers
  have hmem : ∀ i, ∀ t ∈ levelAt (s.remove numbers).levels i, t ∈ levelAt s.levels i := by
    intro i t ht
    rw [hat] at ht
    exact List.mem_of_mem_filter ht
  refine ⟨?_, ?_, ?_, ?_, ?_, fun i t ht => h.sound i t (hmem i t ht),
    fun i t ht => h.stored i t (hmem i t ht)⟩
  · simpa [State.remove] using h.levels_ne
  · exact h.numbers.sublist (List.filter_sublist.map _)
  · intro i
    have hfilter := (h.perm i).filter fun f => f.number ∉ numbers
    rw [List.filter_map, List.filter_filter] at hfilter
    rw [hat, List.filter_filter]
    refine hfilter.trans (List.Perm.of_eq (List.filter_congr fun f _ => ?_))
    exact Bool.and_comm _ _
  · rw [hat]
    exact h.newest.filter _
  · intro i hi
    rw [hat]
    exact (h.sorted i hi).filter _

/-- Files that overlap nothing at their level are sorted into it. -/
theorem Arranged.insert (s : State) (h : Arranged dir s.levels files) {level : ℕ}
    (hlevel : level ≠ 0) {tables : List Table} (hsound : ∀ t ∈ tables, t.Sound)
    (hstored : ∀ t ∈ tables, dir.tables.lookup t.file.number = some (some t.table))
    (htables : ∀ t ∈ tables, t.file.level = level)
    (hnumbers : ((files ++ tables.map Table.file).map FileMeta.number).Nodup)
    (hapart : (levelAt s.levels level ++ tables).Pairwise Apart) :
    Arranged dir (s.insert level tables).levels (files ++ tables.map Table.file) := by
  -- only the level of the new tables changes: it is sorted anew
  set files' := (levelAt s.levels level ++ tables).insertionSort
    fun l r => l.file.minKey ≤ r.file.minKey with hfiles'
  have hperm : files'.Perm (levelAt s.levels level ++ tables) := List.perm_insertionSort _ _
  have hself : levelAt (s.insert level tables).levels level = files' := levelAt_insert_self ..
  have hother : ∀ i, i ≠ level → levelAt (s.insert level tables).levels i = levelAt s.levels i :=
    fun i hi => levelAt_insert_of_ne s tables hi
  have hmem : ∀ i, ∀ t ∈ levelAt (s.insert level tables).levels i,
      t ∈ levelAt s.levels i ∨ t ∈ tables := by
    intro i t ht
    by_cases hi : i = level
    · subst hi
      rw [hself, hperm.mem_iff, List.mem_append] at ht
      exact ht
    · rw [hother i hi] at ht
      exact Or.inl ht
  refine ⟨?_, hnumbers, ?_, ?_, ?_, ?_, ?_⟩
  · rw [← List.length_pos_iff, State.insert]
    dsimp only
    rw [List.length_modify, List.length_append, List.length_replicate]
    omega
  · intro i
    rw [List.filter_append, List.filter_map]
    by_cases hi : i = level
    · subst hi
      have hall :
          tables.filter ((fun f : FileMeta => decide (f.level = i)) ∘ Table.file) = tables :=
        List.filter_eq_self.mpr fun t ht => decide_eq_true (htables t ht)
      rw [hself, hall]
      refine (hperm.map _).trans ?_
      rw [List.map_append]
      exact (h.perm i).append_right _
    · have hnone : tables.filter ((fun f : FileMeta => decide (f.level = i)) ∘ Table.file) = [] :=
        List.filter_eq_nil_iff.mpr fun t ht => by simp [htables t ht, Ne.symm hi]
      rw [hother i hi, hnone, List.map_nil, List.append_nil]
      exact h.perm i
  · rw [hother 0 (Ne.symm hlevel)]
    exact h.newest
  · intro i hi
    by_cases hi' : i = level
    · subst hi'
      rw [hself]
      refine sortedLevel_insertionSort (fun t ht => ?_) hapart
      rcases List.mem_append.mp ht with ht | ht
      · exact h.sound i t ht
      · exact hsound t ht
    · rw [hother i hi']
      exact h.sorted i hi
  · intro i t ht
    rcases hmem i t ht with ht | ht
    · exact h.sound i t ht
    · exact hsound t ht
  · intro i t ht
    rcases hmem i t ht with ht | ht
    · exact h.stored i t ht
    · exact hstored t ht

end

/-! ### Compactions -/

namespace Planned

variable {dir : Dir} {s : State} {files : List FileMeta} {snapshot : Snapshot} {plan : Plan}

/-- Below level 0 the files are those of the snapshot. -/
theorem mem_snapshot (hp : Planned snapshot plan files) {f : FileMeta} (hf : f ∈ files)
    (hlevel : f.level ≠ 0) : f ∈ snapshot.files := by
  obtain ⟨added, rfl, hadded⟩ := hp.grown
  rcases List.mem_append.mp hf with hf | hf
  · exact hf
  · exact absurd (hadded f hf).1 hlevel

theorem input_mem (hp : Planned snapshot plan files) {f : FileMeta} (hf : f ∈ plan.inputs) :
    f ∈ files ∧ f ∈ snapshot.files ∧ (f.level = plan.level ∨ f.level = plan.level + 1) := by
  rw [hp.inputs] at hf
  obtain ⟨hmem, hlevel⟩ := inputsFor_subset hf
  obtain ⟨added, rfl, -⟩ := hp.grown
  exact ⟨List.mem_append_left _ hmem, hmem, hlevel⟩

/-- The files taken out are the inputs. -/
theorem number_mem_iff (hp : Planned snapshot plan files) (h : Arranged dir s.levels files) {i : ℕ}
    {t : Table} (ht : t ∈ levelAt s.levels i) :
    t.file.number ∈ plan.inputNumbers ↔ t.file ∈ plan.inputs := by
  constructor
  · intro hmem
    obtain ⟨f, hf, hnumber⟩ := List.mem_map.mp hmem
    rwa [← Arranged.file_eq_of_number h.numbers (hp.input_mem hf).1 (h.file_mem ht).1 hnumber]
  · exact List.mem_map_of_mem

/-- The tables read are those of the inputs. -/
theorem mem_inputTables (hp : Planned snapshot plan files) (h : Arranged dir s.levels files)
    {u : SsTable} : u ∈ s.inputTables plan ↔
      ∃ i, ∃ t ∈ levelAt s.levels i, t.file ∈ plan.inputs ∧ t.table = u := by
  rw [State.inputTables, List.mem_filterMap]
  constructor
  · rintro ⟨f, hf, hfind⟩
    obtain ⟨t, ht, rfl⟩ := h.exists_table (hp.input_mem hf).1
    rw [h.find s ht] at hfind
    exact ⟨_, t, ht, hf, Option.some.inj hfind⟩
  · rintro ⟨i, t, ht, hf, rfl⟩
    exact ⟨t.file, hf, h.find s ht⟩

/-- **Every input is found**, so a plan is never abandoned. -/
theorem length_inputTables (hp : Planned snapshot plan files) (h : Arranged dir s.levels files) :
    (s.inputTables plan).length = plan.inputs.length := by
  rw [State.inputTables, List.length_filterMap_eq_countP, List.countP_eq_length]
  intro f hf
  obtain ⟨t, ht, rfl⟩ := h.exists_table (hp.input_mem hf).1
  rw [h.find s ht]
  rfl

/-- An input at the level drained is one of the files drained, and lies in their range. -/
theorem drained_range (hp : Planned snapshot plan files) {f : FileMeta} (hf : f ∈ plan.inputs)
    (hlevel : f.level = plan.level) : (rangeOf (drained snapshot plan.level)).1 ≤ f.minKey
      ∧ f.maxKey ≤ (rangeOf (drained snapshot plan.level)).2 := by
  rw [hp.inputs] at hf
  rcases mem_inputsFor.mp hf with hf | ⟨hf, -⟩
  · exact rangeOf_le hf
  · have := (Snapshot.mem_atLevel.mp hf).2
    omega

/-- An input below the level drained meets the range of the files drained. -/
theorem overlapping_range (hp : Planned snapshot plan files) {f : FileMeta} (hf : f ∈ plan.inputs)
    (hlevel : f.level = plan.level + 1) : f.minKey ≤ (rangeOf (drained snapshot plan.level)).2
      ∧ (rangeOf (drained snapshot plan.level)).1 ≤ f.maxKey := by
  rw [hp.inputs] at hf
  rcases mem_inputsFor.mp hf with hf | ⟨-, hf⟩
  · have := (mem_drained hf).2
    omega
  · simpa [FileMeta.overlaps] using hf

/-- A file of the level below that stays does not meet the range of the files drained. -/
theorem kept_range (hp : Planned snapshot plan files) {f : FileMeta} (hf : f ∈ files)
    (hlevel : f.level = plan.level + 1) (hkept : f ∉ plan.inputs) :
    (rangeOf (drained snapshot plan.level)).2 < f.minKey
      ∨ f.maxKey < (rangeOf (drained snapshot plan.level)).1 := by
  rw [hp.inputs, mem_inputsFor, not_or, not_and] at hkept
  have hmem := Snapshot.mem_atLevel.mpr ⟨hp.mem_snapshot hf (by omega), hlevel⟩
  have hoverlaps := hkept.2 hmem
  rw [FileMeta.overlaps, Bool.and_eq_true, decide_eq_true_iff, decide_eq_true_iff, not_and_or,
    not_le, not_le] at hoverlaps
  exact hoverlaps

/-- **The hull of the inputs**: a file of the level below that stays is wholly below or wholly
above everything the inputs hold. -/
theorem kept_apart (hp : Planned snapshot plan files) (h : Arranged dir s.levels files) {g : Table}
    (hg : g ∈ levelAt s.levels (plan.level + 1)) (hkept : g.file ∉ plan.inputs) :
    (∀ u ∈ s.inputTables plan, ∀ e ∈ u.run.entries, g.file.maxKey < e.key)
      ∨ ∀ u ∈ s.inputTables plan, ∀ e ∈ u.run.entries, e.key < g.file.minKey := by
  obtain ⟨hgfile, hglevel⟩ := h.file_mem hg
  have hgsound := h.sound _ g hg
  -- files of one deeper level do not overlap
  have hsame : ∀ t ∈ levelAt s.levels (plan.level + 1), t.file ∈ plan.inputs → Apart g t := by
    intro t ht hti
    have hne : g ≠ t := fun heq => hkept (heq ▸ hti)
    exact (h.sorted (plan.level + 1) (Nat.succ_ne_zero _)).apart.forall hg ht hne
  rcases hp.kept_range hgfile hglevel hkept with hrange | hrange
  · right
    intro u hu e he
    obtain ⟨i, t, ht, hti, rfl⟩ := (hp.mem_inputTables h).mp hu
    have hcovers := (h.sound i t ht).covers he
    rcases (hp.input_mem hti).2.2 with hlevel | hlevel
    · exact (hcovers.2.trans (hp.drained_range hti hlevel).2).trans_lt hrange
    · obtain rfl : i = plan.level + 1 := (h.file_mem ht).2.symm.trans hlevel
      rcases hsame t ht hti with hlt | hlt
      · -- the file would lie between the range and an input that meets it
        have := (hrange.trans_le hgsound.min_le_max).trans hlt
        exact absurd this (not_lt.mpr (hp.overlapping_range hti hlevel).1)
      · exact hcovers.2.trans_lt hlt
  · left
    intro u hu e he
    obtain ⟨i, t, ht, hti, rfl⟩ := (hp.mem_inputTables h).mp hu
    have hcovers := (h.sound i t ht).covers he
    rcases (hp.input_mem hti).2.2 with hlevel | hlevel
    · exact (hrange.trans_le (hp.drained_range hti hlevel).1).trans_le hcovers.1
    · obtain rfl : i = plan.level + 1 := (h.file_mem ht).2.symm.trans hlevel
      rcases hsame t ht hti with hlt | hlt
      · exact hlt.trans_le hcovers.1
      · have := (hlt.trans_le hgsound.min_le_max).trans hrange
        exact absurd this (not_lt.mpr (hp.overlapping_range hti hlevel).2)

end Planned

/-- The outputs are the tables a compaction makes of its inputs. -/
structure Merges (s : State) (snapshot : Snapshot) (plan : Plan) (outputs : List Table) :
    Prop where
  runs : ∃ target, outputs.map (fun t => t.table.run)
    = writeMerged snapshot plan target (s.inputTables plan)
  describes : ∀ t ∈ outputs, t.file.Describes t.table
  level : ∀ t ∈ outputs, t.file.level = plan.outputLevel

namespace Merges

variable {s : State} {snapshot : Snapshot} {plan : Plan} {outputs : List Table}

theorem sound (hm : Merges s snapshot plan outputs) {t : Table} (ht : t ∈ outputs) : t.Sound := by
  obtain ⟨target, hruns⟩ := hm.runs
  refine ⟨hm.describes t ht, ?_⟩
  have hmem : t.table.run ∈ outputs.map fun t => t.table.run := List.mem_map_of_mem ht
  rw [hruns] at hmem
  exact ne_nil_of_mem_cutRun hmem

theorem entry_mem (hm : Merges s snapshot plan outputs) {t : Table} (ht : t ∈ outputs) {e : Entry}
    (he : e ∈ t.table.run.entries) : ∃ u ∈ s.inputTables plan, e ∈ u.run.entries := by
  obtain ⟨target, hruns⟩ := hm.runs
  have hmem : t.table.run ∈ outputs.map fun t => t.table.run := List.mem_map_of_mem ht
  rw [hruns] at hmem
  exact mem_writeMerged hmem he

/-- The smallest and the largest key of an output are keys of inputs. -/
theorem min_max_mem (hm : Merges s snapshot plan outputs) {t : Table} (ht : t ∈ outputs) :
    (∃ u ∈ s.inputTables plan, ∃ e ∈ u.run.entries, e.key = t.file.minKey)
      ∧ ∃ u ∈ s.inputTables plan, ∃ e ∈ u.run.entries, e.key = t.file.maxKey := by
  have hne := (hm.sound ht).nonempty
  have hdesc := hm.describes t ht
  constructor
  · obtain ⟨u, hu, he⟩ := hm.entry_mem ht (List.head_mem hne)
    refine ⟨u, hu, _, he, ?_⟩
    rw [hdesc]
    simp [FileMeta.metaOf, SsTable.minKey, List.head?_eq_some_head hne]
  · obtain ⟨u, hu, he⟩ := hm.entry_mem ht (List.getLast_mem hne)
    refine ⟨u, hu, _, he, ?_⟩
    rw [hdesc]
    simp [FileMeta.metaOf, SsTable.maxKey, List.getLast?_eq_some_getLast hne]

/-- The outputs follow each other. -/
theorem sortedLevel (hm : Merges s snapshot plan outputs) : SortedLevel outputs := by
  obtain ⟨target, hruns⟩ := hm.runs
  have hpair := cutRun_pairwise target ((Merge.mergeTables (s.inputTables plan)).filter fun e =>
    e.value.isSome || tombstoneNeeded snapshot plan.outputLevel e.key)
  rw [← writeMerged, ← hruns, List.pairwise_map] at hpair
  refine List.Pairwise.imp_of_mem (fun {l r} hl hr hlt => ?_) hpair
  have hnl := (hm.sound hl).nonempty
  have hnr := (hm.sound hr).nonempty
  have hkeys := hlt _ (List.getLast_mem hnl) _ (List.head_mem hnr)
  rw [hm.describes l hl, hm.describes r hr]
  simpa [FileMeta.metaOf, SsTable.minKey, SsTable.maxKey, List.head?_eq_some_head hnr,
    List.getLast?_eq_some_getLast hnl] using hkeys

end Merges

namespace Planned

variable {dir : Dir} {s : State} {files : List FileMeta} {snapshot : Snapshot} {plan : Plan}
  {outputs : List Table}

/-- **A compaction keeps the files arranged.** -/
theorem arranged (hp : Planned snapshot plan files) (h : Arranged dir s.levels files)
    (hm : Merges s snapshot plan outputs)
    (hstored : ∀ t ∈ outputs, dir.tables.lookup t.file.number = some (some t.table))
    (hnumbers : ((files ++ outputs.map Table.file).map FileMeta.number).Nodup) :
    Arranged dir ((s.remove plan.inputNumbers).insert plan.outputLevel outputs).levels
      (files.filter (fun f => f.number ∉ plan.inputNumbers) ++ outputs.map Table.file) := by
  refine (h.remove s plan.inputNumbers).insert _ (Nat.succ_ne_zero _) (fun t ht => hm.sound ht)
    hstored hm.level ?_ ?_
  · exact hnumbers.sublist ((List.filter_sublist.append (List.Sublist.refl _)).map _)
  · rw [State.remove]
    dsimp only
    rw [levelAt_map, List.pairwise_append]
    refine ⟨((h.sorted _ (Nat.succ_ne_zero _)).filter _).imp Or.inl, hm.sortedLevel.apart, ?_⟩
    intro g hg t ht
    obtain ⟨hg, hkept⟩ := List.mem_filter.mp hg
    rw [decide_eq_true_iff, hp.number_mem_iff h hg] at hkept
    obtain ⟨⟨u, hu, e, he, hmin⟩, ⟨u', hu', e', he', hmax⟩⟩ := hm.min_max_mem ht
    rcases hp.kept_apart h hg hkept with hbelow | habove
    · exact Or.inl (hmin ▸ hbelow u hu e he)
    · exact Or.inr (hmax ▸ habove u' hu' e' he')

/-- A compaction leaves the levels alone that it neither drains nor fills. -/
theorem levelAt_other (hp : Planned snapshot plan files) (h : Arranged dir s.levels files) {i : ℕ}
    (hi : i ≠ plan.level) (hi' : i ≠ plan.outputLevel) :
    levelAt ((s.remove plan.inputNumbers).insert plan.outputLevel outputs).levels i
      = levelAt s.levels i := by
  rw [levelAt_insert_of_ne _ _ hi', levelAt_remove, List.filter_eq_self]
  intro t ht
  rw [decide_eq_true_iff, hp.number_mem_iff h ht]
  intro hmem
  rw [← (h.file_mem ht).2] at hi hi'
  rcases (hp.input_mem hmem).2.2 with h | h
  · exact hi h
  · exact hi' h

/-- The versions of a key at the level drained: those that stay are met before those that go. -/
theorem filterMap_drained (hp : Planned snapshot plan files) (h : Arranged dir s.levels files)
    (key : Bytes) : (levelAt s.levels plan.level).filterMap (fun t => t.table.run.find key)
      = ((levelAt s.levels plan.level).filter fun t => t.file.number ∉ plan.inputNumbers).filterMap
          (fun t => t.table.run.find key)
        ++ ((levelAt s.levels plan.level).filter fun t =>
          t.file.number ∈ plan.inputNumbers).filterMap
          (fun t => t.table.run.find key) := by
  have hsplit : (levelAt s.levels plan.level).Pairwise fun l r =>
      decide (l.file.number ∈ plan.inputNumbers) = true →
      decide (r.file.number ∈ plan.inputNumbers) = false →
        l.table.run.find key = none ∨ r.table.run.find key = none := by
    by_cases hlevel : plan.level = 0
    · -- all of level 0 goes, except what was flushed since the plan, which is in front
      refine List.Pairwise.imp_of_mem (fun {l r} hl hr hlt hused hkept => ?_)
        (hlevel ▸ h.newest : (levelAt s.levels plan.level).Pairwise
          fun l r => r.file.number < l.file.number)
      rw [decide_eq_true_iff, hp.number_mem_iff h hl] at hused
      rw [decide_eq_false_iff_not, hp.number_mem_iff h hr] at hkept
      obtain ⟨hrfile, hrlevel⟩ := h.file_mem hr
      obtain ⟨added, hgrown, hadded⟩ := hp.grown
      rw [hgrown] at hrfile
      rcases List.mem_append.mp hrfile with hrfile | hrfile
      · refine absurd ?_ hkept
        rw [hp.inputs, mem_inputsFor, hlevel, drained_zero]
        exact Or.inl (Snapshot.mem_atLevel.mpr ⟨hrfile, hrlevel.trans hlevel⟩)
      · have := (hadded _ hrfile).2 l.file (hp.input_mem hused).2.1 ((h.file_mem hl).2.trans hlevel)
        exact absurd hlt (not_lt.mpr this.le)
    · exact ((h.sorted _ hlevel).find_eq_none (h.sound _) key).imp fun h _ _ => h
  rw [filterMap_split hsplit]
  simp only [decide_not]

/-- A version of a key in an input leaves no version of it in a file of the level below that
stays. -/
theorem kept_eq_nil (hp : Planned snapshot plan files) (h : Arranged dir s.levels files)
    {u : SsTable} (hu : u ∈ s.inputTables plan) {e : Entry} (he : e ∈ u.run.entries) :
    ((levelAt s.levels plan.outputLevel).filter fun t =>
      t.file.number ∉ plan.inputNumbers).filterMap (fun t => t.table.run.find e.key) = [] := by
  rw [List.filterMap_eq_nil_iff]
  intro g hg
  obtain ⟨hg, hkept⟩ := List.mem_filter.mp hg
  rw [decide_eq_true_iff, hp.number_mem_iff h hg] at hkept
  cases hfind : g.table.run.find e.key with
  | none => rfl
  | some f =>
    obtain ⟨hf, hkey⟩ := Run.find_mem hfind
    have hcovers := (h.sound _ g hg).covers hf
    rw [hkey] at hcovers
    rcases hp.kept_apart h hg hkept with hlt | hlt
    · exact absurd (hlt u hu e he) (not_lt.mpr hcovers.2)
    · exact absurd (hlt u hu e he) (not_lt.mpr hcovers.1)

/-- What the inputs hold of a key, in the order it is met. -/
def inputChain (s : State) (plan : Plan) (key : Bytes) : List Entry :=
  ((levelAt s.levels plan.level).filter fun t => t.file.number ∈ plan.inputNumbers).filterMap
      (fun t => t.table.run.find key)
    ++ ((levelAt s.levels plan.outputLevel).filter fun t =>
      t.file.number ∈ plan.inputNumbers).filterMap fun t => t.table.run.find key

/-- What the files of a level that stay hold of a key. -/
def keptChain (s : State) (plan : Plan) (i : ℕ) (key : Bytes) : List Entry :=
  ((levelAt s.levels i).filter fun t => t.file.number ∉ plan.inputNumbers).filterMap
    fun t => t.table.run.find key

theorem mem_inputChain (hp : Planned snapshot plan files) (h : Arranged dir s.levels files)
    {key : Bytes} {e : Entry} : e ∈ inputChain s plan key ↔
      e.key = key ∧ ∃ u ∈ s.inputTables plan, e ∈ u.run.entries := by
  have hmem : ∀ i, e ∈ ((levelAt s.levels i).filter fun t =>
      t.file.number ∈ plan.inputNumbers).filterMap (fun t => t.table.run.find key) ↔
        e.key = key ∧ ∃ t ∈ levelAt s.levels i, t.file ∈ plan.inputs ∧ e ∈ t.table.run.entries := by
    intro i
    simp only [List.mem_filterMap, List.mem_filter, decide_eq_true_iff]
    constructor
    · rintro ⟨t, ⟨ht, hused⟩, hfind⟩
      obtain ⟨he, hkey⟩ := Run.find_mem hfind
      exact ⟨hkey, t, ht, (hp.number_mem_iff h ht).mp hused, he⟩
    · rintro ⟨hkey, t, ht, hused, he⟩
      exact ⟨t, ⟨ht, (hp.number_mem_iff h ht).mpr hused⟩, Run.find_eq_some_iff.mpr ⟨he, hkey⟩⟩
  rw [inputChain, List.mem_append, hmem, hmem]
  constructor
  · rintro (⟨hkey, t, ht, hused, he⟩ | ⟨hkey, t, ht, hused, he⟩)
    · exact ⟨hkey, t.table, (hp.mem_inputTables h).mpr ⟨_, t, ht, hused, rfl⟩, he⟩
    · exact ⟨hkey, t.table, (hp.mem_inputTables h).mpr ⟨_, t, ht, hused, rfl⟩, he⟩
  · rintro ⟨hkey, u, hu, he⟩
    obtain ⟨i, t, ht, hused, rfl⟩ := (hp.mem_inputTables h).mp hu
    have hi := (h.file_mem ht).2
    rcases (hp.input_mem hused).2.2 with hlevel | hlevel
    · obtain rfl : i = plan.level := hi.symm.trans hlevel
      exact Or.inl ⟨hkey, t, ht, hused, he⟩
    · obtain rfl : i = plan.outputLevel := hi.symm.trans hlevel
      exact Or.inr ⟨hkey, t, ht, hused, he⟩

/-- The merge picks the version of a key that is met first. -/
theorem find_mergeTables (hp : Planned snapshot plan files) (h : Arranged dir s.levels files)
    {key : Bytes} (hdesc : Descending (inputChain s plan key)) :
    (Merge.mergeTables (s.inputTables plan)).find key = (inputChain s plan key).head? := by
  obtain ⟨-, hfrom, hto⟩ := Merge.merged_spec (s.inputTables plan)
  cases hchain : inputChain s plan key with
  | nil =>
    rw [List.head?_nil, Run.find_eq_none_iff]
    intro e he hkey
    have hmem := (hp.mem_inputChain h).mpr ⟨hkey, (hfrom e he).1⟩
    rw [hchain] at hmem
    cases hmem
  | cons first rest =>
    obtain ⟨hfkey, u, hu, hfirst⟩ := (hp.mem_inputChain h).mp
      (hchain ▸ List.mem_cons_self : first ∈ inputChain s plan key)
    obtain ⟨e, he, hkey⟩ := hto u hu first hfirst
    have hkey' : e.key = key := hkey.trans hfkey
    have hmem := (hp.mem_inputChain h).mpr ⟨hkey', (hfrom e he).1⟩
    have hle : first.seq ≤ e.seq := (hfrom e he).2 u hu first hfirst hkey.symm
    rw [List.head?_cons, Run.find_eq_some_iff]
    suffices heq : first = e by
      exact heq ▸ ⟨he, hkey'⟩
    rw [hchain] at hmem hdesc
    rcases List.mem_cons.mp hmem with heq | hmem
    · exact heq.symm
    · rcases (List.pairwise_cons.mp hdesc).1 e hmem with hlt | heq
      · omega
      · exact heq

/-- The versions of a key before and after: in between those above and those below, the ones in the
inputs are replaced by the ones in the outputs. -/
theorem exists_chains (hp : Planned snapshot plan files) (h : Arranged dir s.levels files)
    (outputs : List Table) (key : Bytes) : ∃ above below,
      levelChain s.levels key = above ++ (inputChain s plan key
          ++ (keptChain s plan plan.outputLevel key ++ below))
        ∧ levelChain ((s.remove plan.inputNumbers).insert plan.outputLevel outputs).levels key
          = above ++ ((levelAt ((s.remove plan.inputNumbers).insert plan.outputLevel outputs).levels
            plan.outputLevel).filterMap (fun t => t.table.run.find key) ++ below)
        ∧ ∀ e ∈ below, tombstoneNeeded snapshot plan.outputLevel key = true := by
  set levels' := ((s.remove plan.inputNumbers).insert plan.outputLevel outputs).levels with hlevels'
  set find : Table → Option Entry := fun t => t.table.run.find key with hfind
  set n := max s.levels.length levels'.length with hn
  refine ⟨((List.range plan.level).flatMap fun i => (levelAt s.levels i).filterMap find)
      ++ keptChain s plan plan.level key,
    (List.range n).flatMap fun i => (levelAt s.levels (plan.level + 2 + i)).filterMap find,
    ?_, ?_, ?_⟩
  · -- a file of the level filled holds a key alone, so the order there does not matter
    have hfilled : (levelAt s.levels plan.outputLevel).filterMap find
        = ((levelAt s.levels plan.outputLevel).filter fun t =>
            t.file.number ∈ plan.inputNumbers).filterMap find
          ++ keptChain s plan plan.outputLevel key := by
      have hpair := (h.sorted plan.outputLevel (Nat.succ_ne_zero _)).find_eq_none (h.sound _) key
      rw [filterMap_split (f := find) (p := fun t => decide (t.file.number ∉ plan.inputNumbers))
        (hpair.imp fun h _ _ => h)]
      simp only [keptChain, hfind, decide_not, Bool.not_not]
    rw [levelChain_split s.levels plan.level key (n := n) (by omega), hp.filterMap_drained h key,
      show plan.level + 1 = plan.outputLevel from rfl, hfilled]
    simp only [inputChain, keptChain, hfind, List.append_assoc]
  · have hdrained : levelAt levels' plan.level
        = (levelAt s.levels plan.level).filter fun t => t.file.number ∉ plan.inputNumbers := by
      have hne : plan.level ≠ plan.outputLevel := (Nat.succ_ne_self _).symm
      rw [hlevels', levelAt_insert_of_ne _ _ hne, levelAt_remove]
    have hother : ∀ i, i ≠ plan.level → i ≠ plan.outputLevel →
        levelAt levels' i = levelAt s.levels i := fun i => hp.levelAt_other h
    rw [levelChain_split levels' plan.level key (n := n) (by omega), hdrained, List.append_assoc]
    congr 1
    · refine List.flatMap_congr fun i hi => ?_
      have := List.mem_range.mp hi
      rw [hother i (by omega) (by rw [Plan.outputLevel]; omega)]
    · congr 2
      refine List.flatMap_congr fun i _ => ?_
      rw [hother _ (by omega) (by rw [Plan.outputLevel]; omega)]
  · -- a table further down that answers the key covers it
    intro e he
    obtain ⟨i, -, he⟩ := List.mem_flatMap.mp he
    obtain ⟨t, ht, hfound⟩ := List.mem_filterMap.mp he
    obtain ⟨hmem, hkey⟩ := Run.find_mem hfound
    obtain ⟨hfile, hlevel⟩ := h.file_mem ht
    have hcovers := (h.sound _ t ht).describes.covers hmem
    rw [tombstoneNeeded, List.any_eq_true]
    refine ⟨t.file, hp.mem_snapshot hfile (by omega), ?_⟩
    rw [Bool.and_eq_true, decide_eq_true_iff, ← hkey, hlevel, Plan.outputLevel]
    exact ⟨by omega, hcovers⟩

/-- **A compaction keeps every answer**: of the versions of a key in its inputs it leaves the first
one met, or none if that is a tombstone with nothing below it. -/
theorem shrinks (hp : Planned snapshot plan files) (h : Arranged dir s.levels files)
    (hm : Merges s snapshot plan outputs) {key : Bytes}
    (hdesc : Descending (levelChain s.levels key)) :
    Shrinks (levelChain ((s.remove plan.inputNumbers).insert plan.outputLevel outputs).levels key)
      (levelChain s.levels key) := by
  obtain ⟨above, below, hold, hnew, hbelow⟩ := hp.exists_chains h outputs key
  have hperm : ((levelAt ((s.remove plan.inputNumbers).insert plan.outputLevel outputs).levels
      plan.outputLevel).filterMap fun t => t.table.run.find key).Perm
        (keptChain s plan plan.outputLevel key
          ++ outputs.filterMap fun t => t.table.run.find key) := by
    rw [levelAt_insert_self, levelAt_remove]
    refine ((List.perm_insertionSort _ _).filterMap _).trans ?_
    rw [List.filterMap_append]
    exact List.Perm.refl _
  have hinputs : Descending (inputChain s plan key) := by
    rw [hold] at hdesc
    exact hdesc.sublist ((List.sublist_append_left _ _).trans (List.sublist_append_right _ _))
  have hout : outputs.filterMap (fun t => t.table.run.find key)
      = ((inputChain s plan key).head?.filter fun e =>
          e.value.isSome || tombstoneNeeded snapshot plan.outputLevel e.key).toList := by
    obtain ⟨target, hruns⟩ := hm.runs
    rw [← hp.find_mergeTables h hinputs, ← find_writeMerged snapshot plan target, ← hruns,
      List.filterMap_map]
    rfl
  rw [hold, hnew]
  cases hchain : inputChain s plan key with
  | nil =>
    -- no input holds the key, and at most one of the files that stay
    have hkept :=
      SortedLevel.filterMap_find ((h.sorted plan.outputLevel (Nat.succ_ne_zero _)).filter
      fun t => t.file.number ∉ plan.inputNumbers)
        (fun t ht => h.sound _ t (List.mem_of_mem_filter ht)) key
    rw [hout, hchain, List.head?_nil, Option.filter_none, Option.toList_none, List.append_nil,
      keptChain, hkept] at hperm
    rw [eq_toList_of_perm hperm, ← hkept]
    exact Shrinks.refl _
  | cons first rest =>
    obtain ⟨hkey, u, hu, hfirst⟩ := (hp.mem_inputChain h).mp
      (hchain ▸ List.mem_cons_self : first ∈ inputChain s plan key)
    have hkept : keptChain s plan plan.outputLevel key = [] := hkey ▸ hp.kept_eq_nil h hu hfirst
    rw [hout, hchain, hkept, List.nil_append, List.head?_cons] at hperm
    rw [hkept, List.nil_append, eq_toList_of_perm hperm]
    set keep : Entry → Bool := fun e =>
      e.value.isSome || tombstoneNeeded snapshot plan.outputLevel e.key
    by_cases hkeep : keep first = true
    · rw [Option.filter_some_pos hkeep]
      exact shrinks_merge above below (List.head?_cons ..)
    · rw [Option.filter_some_neg (Bool.eq_false_iff.mpr hkeep)]
      rw [Bool.or_eq_true, not_or, hkey] at hkeep
      have hempty : below = [] := List.eq_nil_iff_forall_not_mem.mpr fun e he =>
        hkeep.2 (hbelow e he)
      rw [hempty, List.append_nil, Option.toList_none, List.append_nil]
      exact shrinks_drop above (List.head?_cons ..) (by simpa using hkeep.1)

end Planned

end Lsmkv
