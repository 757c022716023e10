import Lsmkv.Engine.Dir

/-!
# The files of a snapshot, arranged in levels

`Arranged dir levels files` says that `levels` holds the files of a snapshot the way `Engine::get`
searches them: level 0 newest first, deeper levels by key and without overlap, each file being the
complete table the directory has under its number.

There is only one arrangement of a file set, up to empty levels at the end
(`Arranged.levelAt_eq`), and `open_levels` finds it (`Arranged.openLevels`).  Levels are compared
through `levelAt`, which is empty past the last one.
-/

namespace Lsmkv

open State

/-- The files of a level; a level past the last one is empty. -/
def levelAt (levels : List (List Table)) (i : ℕ) : List Table := levels[i]?.getD []

/-- One of the two files ends before the other begins. -/
def Apart (l r : Table) : Prop :=
  l.file.maxKey < r.file.minKey ∨ r.file.maxKey < l.file.minKey

/-- The levels hold the files, in the order they are searched, and the directory holds the
tables. -/
structure Arranged (dir : Dir) (levels : List (List Table)) (files : List FileMeta) : Prop where
  levels_ne : levels ≠ []
  numbers : (files.map FileMeta.number).Nodup
  perm : ∀ i, ((levelAt levels i).map Table.file).Perm (files.filter fun f => f.level = i)
  newest : (levelAt levels 0).Pairwise fun l r => r.file.number < l.file.number
  sorted : ∀ i, i ≠ 0 → SortedLevel (levelAt levels i)
  sound : ∀ i, ∀ t ∈ levelAt levels i, t.Sound
  stored : ∀ i, ∀ t ∈ levelAt levels i, dir.tables.lookup t.file.number = some (some t.table)

/-! ### Levels by index -/

theorem levelAt_nil (i : ℕ) : levelAt [] i = [] := rfl

theorem levelAt_zero_cons (level : List Table) (rest : List (List Table)) :
    levelAt (level :: rest) 0 = level := rfl

theorem levelAt_of_length_le {levels : List (List Table)} {i : ℕ} (h : levels.length ≤ i) :
    levelAt levels i = [] := by
  rw [levelAt, List.getElem?_eq_none h, Option.getD_none]

theorem mem_flatten_iff {levels : List (List Table)} {t : Table} :
    t ∈ levels.flatten ↔ ∃ i, t ∈ levelAt levels i := by
  induction levels with
  | nil => simp [levelAt_nil]
  | cons level rest ih =>
    rw [List.flatten_cons, List.mem_append, ih]
    constructor
    · rintro (h | ⟨i, h⟩)
      · exact ⟨0, h⟩
      · exact ⟨i + 1, h⟩
    · rintro ⟨i, h⟩
      cases i with
      | zero => exact Or.inl h
      | succ i => exact Or.inr ⟨i, h⟩

theorem levelAt_modify (levels : List (List Table)) (i j : ℕ) (f : List Table → List Table) :
    levelAt (levels.modify i f) j
      = if i = j ∧ j < levels.length then f (levelAt levels j) else levelAt levels j := by
  unfold levelAt
  rw [List.getElem?_modify]
  by_cases hj : j < levels.length
  · rw [List.getElem?_eq_getElem hj]
    split_ifs <;> simp_all
  · rw [List.getElem?_eq_none (not_lt.mp hj)]
    simp [hj]

theorem levelAt_map (levels : List (List Table)) (p : Table → Bool) (i : ℕ) :
    levelAt (levels.map fun level => level.filter p) i = (levelAt levels i).filter p := by
  unfold levelAt
  rw [List.getElem?_map]
  cases levels[i]? <;> rfl

theorem levelAt_append_replicate (levels : List (List Table)) (n i : ℕ) :
    levelAt (levels ++ List.replicate n []) i = levelAt levels i := by
  rcases lt_or_ge i levels.length with hi | hi
  · rw [levelAt, List.getElem?_append_left hi, levelAt]
  · rw [levelAt_of_length_le hi, levelAt, List.getElem?_append_right hi, List.getElem?_replicate]
    split_ifs <;> rfl

theorem levelAt_mapIdx (levels : List (List Table)) (f : ℕ → List Table → List Table)
    (hf : ∀ i, f i [] = []) (i : ℕ) :
    levelAt (levels.mapIdx f) i = f i (levelAt levels i) := by
  unfold levelAt
  rw [List.getElem?_mapIdx]
  cases levels[i]? with
  | none => exact (hf i).symm
  | some level => rfl

/-- The versions in the files, level by level. -/
theorem levelChain_eq_range {levels : List (List Table)} {n : ℕ} (hn : levels.length ≤ n)
    (key : Bytes) : levelChain levels key
      = (List.range n).flatMap fun i => (levelAt levels i).filterMap fun t =>
        t.table.run.find key := by
  induction levels generalizing n with
  | nil => simp [levelChain, levelAt_nil]
  | cons level rest ih =>
    cases n with
    | zero => simp at hn
    | succ n =>
      rw [List.range_succ_eq_map, List.flatMap_cons, levelAt_zero_cons, List.flatMap_map,
        levelChain, List.flatMap_cons, ← levelChain, ih (Nat.le_of_succ_le_succ hn)]
      rfl

/-- The versions in the files of two neighbouring levels, between those above and those below. -/
theorem levelChain_split (levels : List (List Table)) (l : ℕ) (key : Bytes) {n : ℕ}
    (hn : levels.length ≤ l + 2 + n) : levelChain levels key
      = ((List.range l).flatMap fun i => (levelAt levels i).filterMap fun t => t.table.run.find key)
        ++ ((levelAt levels l).filterMap (fun t => t.table.run.find key)
          ++ ((levelAt levels (l + 1)).filterMap (fun t => t.table.run.find key)
            ++ (List.range n).flatMap fun i =>
              (levelAt levels (l + 2 + i)).filterMap fun t => t.table.run.find key)) := by
  rw [levelChain_eq_range hn, List.range_add, List.range_succ, List.range_succ]
  simp [List.flatMap_append, List.flatMap_map]

/-- Only the files of each level matter to a search. -/
theorem levelChain_congr {levels levels' : List (List Table)}
    (h : ∀ i, levelAt levels i = levelAt levels' i) (key : Bytes) :
    levelChain levels key = levelChain levels' key := by
  rw [levelChain_eq_range (le_max_left levels.length levels'.length),
    levelChain_eq_range (le_max_right levels.length levels'.length)]
  simp only [h]

/-! ### Files in order of their keys -/

theorem SortedLevel.apart {level : List Table} (h : SortedLevel level) : level.Pairwise Apart :=
  h.imp Or.inl

instance : Std.Total fun l r : Table => l.file.minKey ≤ r.file.minKey :=
  ⟨fun _ _ => le_total _ _⟩

instance : IsTrans Table fun l r => l.file.minKey ≤ r.file.minKey :=
  ⟨fun _ _ _ => le_trans⟩

instance : Std.Total fun l r : FileMeta => l.number ≤ r.number := ⟨fun _ _ => le_total _ _⟩

instance : IsTrans FileMeta fun l r => l.number ≤ r.number := ⟨fun _ _ _ => le_trans⟩

theorem apart_symm {l r : Table} (h : Apart l r) : Apart r l := h.symm

instance : Std.Symm Apart := ⟨fun _ _ => apart_symm⟩

/-- Sorting files that do not overlap by smallest key puts them in order. -/
theorem sortedLevel_insertionSort {level : List Table} (hsound : ∀ t ∈ level, t.Sound)
    (hapart : level.Pairwise Apart) :
    SortedLevel (level.insertionSort fun l r => l.file.minKey ≤ r.file.minKey) := by
  have hperm := List.perm_insertionSort (fun l r : Table => l.file.minKey ≤ r.file.minKey) level
  refine sortedLevel_of_apart (fun t ht => (hsound t (hperm.mem_iff.mp ht)).min_le_max)
    (List.pairwise_insertionSort _ level) ?_
  exact (hperm.pairwise_iff apart_symm).mpr hapart

namespace Arranged

variable {dir dir' : Dir} {levels levels' : List (List Table)} {files : List FileMeta}

/-! ### Files and tables -/

theorem file_mem (h : Arranged dir levels files) {i : ℕ} {t : Table} (ht : t ∈ levelAt levels i) :
    t.file ∈ files ∧ t.file.level = i := by
  have hmem := (h.perm i).mem_iff.mp (List.mem_map_of_mem ht)
  simpa using hmem

theorem exists_table (h : Arranged dir levels files) {f : FileMeta} (hf : f ∈ files) :
    ∃ t ∈ levelAt levels f.level, t.file = f := by
  have hmem : f ∈ files.filter fun g => g.level = f.level := by simpa using hf
  exact List.mem_map.mp ((h.perm f.level).mem_iff.mpr hmem)

/-- Files with one number are one file. -/
theorem file_eq_of_number (hnumbers : (files.map FileMeta.number).Nodup) {f g : FileMeta}
    (hf : f ∈ files) (hg : g ∈ files) (hnumber : f.number = g.number) : f = g :=
  List.inj_on_of_nodup_map hnumbers hf hg hnumber

/-- What two arrangements hold under one number is one table. -/
theorem eq_of_number (h : Arranged dir levels files) (h' : Arranged dir levels' files) {i j : ℕ}
    {t u : Table} (ht : t ∈ levelAt levels i) (hu : u ∈ levelAt levels' j)
    (hnumber : t.file.number = u.file.number) : t = u := by
  have hfile := file_eq_of_number h.numbers (h.file_mem ht).1 (h'.file_mem hu).1 hnumber
  have hlookup := (h.stored i t ht).symm.trans (hnumber ▸ h'.stored j u hu)
  obtain ⟨file, table⟩ := t
  obtain ⟨file', table'⟩ := u
  obtain rfl : file = file' := hfile
  obtain rfl : table = table' := Option.some.inj (Option.some.inj hlookup)
  rfl

/-- A directory that keeps the tables keeps the arrangement. -/
theorem congr_dir (h : Arranged dir levels files)
    (hdir : ∀ f ∈ files, dir'.tables.lookup f.number = dir.tables.lookup f.number) :
    Arranged dir' levels files :=
  { h with stored := fun i t ht => (hdir _ (h.file_mem ht).1).trans (h.stored i t ht) }

theorem deep_sorted (h : Arranged dir levels files) :
    ∀ level ∈ levels.drop 1, SortedLevel level ∧ ∀ t ∈ level, t.Sound := by
  intro level hlevel
  obtain ⟨i, hi, rfl⟩ := List.mem_iff_getElem.mp hlevel
  have hget : (levels.drop 1)[i] = levelAt levels (1 + i) := by
    rw [List.length_drop] at hi
    rw [levelAt, List.getElem_drop, List.getElem?_eq_getElem (by omega), Option.getD_some]
  rw [hget]
  exact ⟨h.sorted (1 + i) (by omega), h.sound (1 + i)⟩

/-- The state finds the table of every file. -/
theorem find (s : State) (h : Arranged dir s.levels files) {i : ℕ} {t : Table}
    (ht : t ∈ levelAt s.levels i) : s.find t.file.number = some t.table := by
  unfold State.find
  have hmem : t ∈ s.levels.flatten := mem_flatten_iff.mpr ⟨i, ht⟩
  cases hfind : s.levels.flatten.find? fun u => u.file.number = t.file.number with
  | none => exact absurd (List.find?_eq_none.mp hfind t hmem) (by simp)
  | some u =>
    obtain ⟨j, hu⟩ := mem_flatten_iff.mp (List.mem_of_find?_eq_some hfind)
    have hnumber : u.file.number = t.file.number := by simpa using List.find?_some hfind
    rw [h.eq_of_number h hu ht hnumber]
    rfl

/-! ### There is one arrangement -/

/-- **A file set has one arrangement**, level by level. -/
theorem levelAt_eq (h : Arranged dir levels files) (h' : Arranged dir levels' files) (i : ℕ) :
    levelAt levels i = levelAt levels' i := by
  -- both levels list the same files, and a file determines its table
  have hsub : ∀ {l l' : List (List Table)}, Arranged dir l files → Arranged dir l' files →
      ∀ t ∈ levelAt l i, t ∈ levelAt l' i := by
    intro l l' hl hl' t ht
    obtain ⟨hfile, hlevel⟩ := hl.file_mem ht
    obtain ⟨u, hu, hut⟩ := hl'.exists_table hfile
    rw [hlevel] at hu
    rwa [hl.eq_of_number hl' ht hu (by rw [hut])]
  have hnodup : ∀ {l : List (List Table)}, Arranged dir l files → (levelAt l i).Nodup := by
    intro l hl
    have hfiles : (files.filter fun f => f.level = i).Nodup := h.numbers.of_map.filter _
    exact ((hl.perm i).nodup_iff.mpr hfiles).of_map
  have hperm : (levelAt levels i).Perm (levelAt levels' i) :=
    (List.perm_ext_iff_of_nodup (hnodup h) (hnodup h')).mpr
      fun t => ⟨hsub h h' t, hsub h' h t⟩
  by_cases hi : i = 0
  · subst hi
    exact hperm.eq_of_pairwise (fun _ _ _ _ hab hba => absurd hab (not_lt.mpr hba.le))
      h.newest h'.newest
  · refine hperm.eq_of_pairwise (fun l r hl hr hlr hrl => ?_) (h.sorted i hi) (h'.sorted i hi)
    exact absurd (hrl.trans_le (h.sound i l hl).min_le_max)
      (not_lt.mpr ((h'.sound i r hr).min_le_max.trans' hlr.le))

theorem levelChain_eq (h : Arranged dir levels files) (h' : Arranged dir levels' files)
    (key : Bytes) : levelChain levels key = levelChain levels' key :=
  levelChain_congr (h.levelAt_eq h') key

/-! ### Opening the files -/

/-- Pushing the files of a snapshot puts the table of each behind those of its level. -/
theorem pushTables_eq (dir : Dir) (table : FileMeta → SsTable) : ∀ (files : List FileMeta)
    (levels : List (List Table)),
    (∀ f ∈ files, openTable dir f.number = .ok (table f) ∧ f.level < levels.length) →
      ∃ levels', pushTables dir files levels = .ok levels' ∧ levels'.length = levels.length
        ∧ ∀ i, levelAt levels' i = levelAt levels i
          ++ (files.filter fun f => f.level = i).map fun f => ⟨f, table f⟩
  | [], levels, _ => ⟨levels, rfl, rfl, fun i => by simp⟩
  | f :: files, levels, hopen => by
    obtain ⟨hf, hlevel⟩ := hopen f List.mem_cons_self
    set levels₁ := levels.modify f.level (· ++ [⟨f, table f⟩]) with hlevels₁
    have hlength : levels₁.length = levels.length := List.length_modify ..
    obtain ⟨levels', hpush, hlength', hat⟩ := pushTables_eq dir table files levels₁
      fun g hg => hlength ▸ hopen g (List.mem_cons_of_mem _ hg)
    refine ⟨levels', ?_, hlength'.trans hlength, fun i => ?_⟩
    · simp only [pushTables, hf, bind, Except.bind]
      exact hpush
    · rw [hat, hlevels₁, levelAt_modify]
      by_cases hi : f.level = i
      · subst hi
        simp [hlevel]
      · simp [hi]

/-- **Opening an arranged file set** arranges it. -/
theorem openLevels {snapshot : Snapshot} (h : Arranged dir levels snapshot.files) :
    ∃ levels', Lsmkv.openLevels dir snapshot = .ok levels'
      ∧ Arranged dir levels' snapshot.files := by
  -- the table the directory has for a file
  set table : FileMeta → SsTable := fun f => ((dir.tables.lookup f.number).join).getD
    (SsTable.write Run.empty) with htable
  set files := snapshot.files.insertionSort fun l r => l.number ≤ r.number with hfiles
  have hsort : files.Perm snapshot.files := List.perm_insertionSort _ _
  obtain ⟨pushed, hpush, hlength, hat⟩ := pushTables_eq dir table files
    (List.replicate (snapshot.deepestLevel + 1) []) (by
      intro f hf
      have hmem := hsort.mem_iff.mp hf
      obtain ⟨t, ht, rfl⟩ := h.exists_table hmem
      refine ⟨by simp [openTable, htable, h.stored _ t ht], ?_⟩
      rw [List.length_replicate]
      exact Nat.lt_succ_of_le (Snapshot.level_le_deepestLevel hmem))
  -- what was pushed to a level is the level as it was arranged before, up to order
  have hperm : ∀ i, (levelAt pushed i).Perm (levelAt levels i) := by
    intro i
    have hback : ((levelAt levels i).map Table.file).map (fun f => (⟨f, table f⟩ : Table))
        = levelAt levels i := by
      rw [List.map_map]
      refine (List.map_congr_left fun t ht => ?_).trans (List.map_id _)
      simp [htable, h.stored i t ht]
    have hempty : levelAt (List.replicate (snapshot.deepestLevel + 1) []) i = [] := by
      have := levelAt_append_replicate [] (snapshot.deepestLevel + 1) i
      rwa [List.nil_append] at this
    rw [hat, hempty, List.nil_append, ← hback]
    exact ((hsort.filter _).trans (h.perm i).symm).map _
  have hnumber : (levelAt pushed 0).Pairwise fun l r => l.file.number < r.file.number := by
    have hstrict : files.Pairwise fun l r => l.number < r.number := by
      have hnodup : files.Pairwise fun l r => l.number ≠ r.number :=
        List.pairwise_map.mp ((hsort.map FileMeta.number).nodup_iff.mpr h.numbers)
      exact (hnodup.and (List.pairwise_insertionSort _ _)).imp fun h => lt_of_le_of_ne h.2 h.1
    have hempty : levelAt (List.replicate (snapshot.deepestLevel + 1) []) 0 = [] := rfl
    rw [hat, hempty, List.nil_append, List.pairwise_map]
    exact hstrict.filter _
  set sorted : List (List Table) := (pushed.modify 0 List.reverse).mapIdx fun i level =>
    if i = 0 then level else level.insertionSort fun l r => l.file.minKey ≤ r.file.minKey
    with hsorted
  have hzero : levelAt sorted 0 = (levelAt pushed 0).reverse := by
    rw [hsorted, levelAt_mapIdx _ _ (by intro i; split_ifs <;> rfl), if_pos rfl, levelAt_modify,
      if_pos ⟨rfl, by rw [hlength, List.length_replicate]; omega⟩]
  have hdeep : ∀ i, i ≠ 0 → levelAt sorted i
      = (levelAt pushed i).insertionSort fun l r => l.file.minKey ≤ r.file.minKey := by
    intro i hi
    rw [hsorted, levelAt_mapIdx _ _ (by intro i; split_ifs <;> rfl), if_neg hi, levelAt_modify,
      if_neg (by simp [Ne.symm hi])]
  have hsame : ∀ i, (levelAt sorted i).Perm (levelAt levels i) := by
    intro i
    by_cases hi : i = 0
    · rw [hi, hzero]
      exact (List.reverse_perm _).trans (hperm 0)
    · rw [hdeep i hi]
      exact (List.perm_insertionSort _ _).trans (hperm i)
  refine ⟨sorted, ?_, ?_, h.numbers, ?_, ?_, ?_, ?_, ?_⟩
  · simp only [Lsmkv.openLevels, ← hfiles, hpush, bind, Except.bind]
    rfl
  · rw [← List.length_pos_iff, hsorted, List.length_mapIdx, List.length_modify, hlength,
      List.length_replicate]
    omega
  · exact fun i => ((hsame i).map _).trans (h.perm i)
  · rw [hzero, List.pairwise_reverse]
    exact hnumber
  · intro i hi
    rw [hdeep i hi]
    exact sortedLevel_insertionSort (fun t ht => h.sound i t ((hperm i).mem_iff.mp ht))
      (((hperm i).pairwise_iff apart_symm).mpr (h.sorted i hi).apart)
  · exact fun i t ht => h.sound i t ((hsame i).mem_iff.mp ht)
  · exact fun i t ht => h.stored i t ((hsame i).mem_iff.mp ht)

end Arranged

end Lsmkv
