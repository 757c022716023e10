import Lsmkv.Lib.BinarySearch
import Lsmkv.Manifest
import Lsmkv.Memtable

/-!
# The state in memory (`engine::State`)

The active memtable, the frozen ones, and the files by level, with the lookups `Engine::get` makes.
`State.chain s k` is the list of versions of `k` in the order `get` would meet them; `get` answers
with its head (`get_eq_head`), provided the files of each deeper level follow each other
(`SortedLevel`), so that the binary search of `covering` misses none.
-/

namespace Lsmkv

/-- A file the store holds, with what the manifest knows about it. -/
structure Table where
  file : FileMeta
  table : SsTable

/-- A memtable waiting to become a file, and the logs that still hold it. -/
structure Frozen where
  memtable : Memtable
  logs : List ℕ

/-- What readers see. -/
structure State where
  active : Memtable
  /-- Logs holding the active table's records. -/
  activeLogs : List ℕ
  /-- Newest first. -/
  frozen : List Frozen
  levels : List (List Table)

/-- The comparison `covering` searches a level with. -/
def coveringOrder (key : Bytes) (t : Table) : Ordering :=
  if t.file.maxKey < key then .lt else if key < t.file.minKey then .gt else .eq

/-- The file of a level that could hold `key`, found by binary search. -/
def covering (level : List Table) (key : Bytes) : Option Table :=
  (binarySearchBy (coveringOrder key) level).bind fun i => level[i]?

/-- Walks lookups until one answers. -/
def firstAnswer : List Lookup → Option Bytes
  | [] => none
  | lookup :: rest =>
    match answer lookup with
    | some result => result
    | none => firstAnswer rest

namespace State

/-- The open file with this number, if the store still holds it. -/
def find (s : State) (number : ℕ) : Option SsTable :=
  (s.levels.flatten.find? fun t => t.file.number = number).map Table.table

/-- Drops the files a compaction consumed. -/
def remove (s : State) (numbers : List ℕ) : State :=
  { s with levels := s.levels.map fun level => level.filter fun t => t.file.number ∉ numbers }

/-- Adds the files a compaction produced, keeping the level sorted by key. -/
def insert (s : State) (level : ℕ) (tables : List Table) : State :=
  let levels := s.levels ++ List.replicate (level + 1 - s.levels.length) []
  { s with levels := levels.modify level fun files =>
      (files ++ tables).insertionSort fun l r => l.file.minKey ≤ r.file.minKey }

/-- The lookups `Engine::get` makes, in order. -/
def lookups (s : State) (key : Bytes) : List Lookup :=
  [s.active.get key] ++ s.frozen.map (fun f => f.memtable.get key)
    ++ (s.levels.head?.getD []).map (fun t => t.table.get key)
    ++ (s.levels.drop 1).filterMap fun level => (covering level key).map fun t => t.table.get key

/-- `Engine::get`. -/
def get (s : State) (key : Bytes) : Option Bytes := firstAnswer (s.lookups key)

/-- The versions of `key` in the files of all levels, newest level first. -/
def levelChain (levels : List (List Table)) (key : Bytes) : List Entry :=
  levels.flatMap fun level => level.filterMap fun t => t.table.run.find key

/-- The versions of `key` in the memtables, newest first. -/
def memChain (s : State) (key : Bytes) : List Entry :=
  (s.active.run.find key).toList ++ s.frozen.filterMap fun f => f.memtable.run.find key

/-- The versions of `key` in the order `get` meets them. -/
def chain (s : State) (key : Bytes) : List Entry := s.memChain key ++ levelChain s.levels key

end State

/-! ### Files and levels -/

/-- The file is what the manifest says, and holds something. -/
structure Table.Sound (t : Table) : Prop where
  describes : t.file.Describes t.table
  nonempty : t.table.run.entries ≠ []

theorem Table.Sound.covers {t : Table} (ht : t.Sound) {e : Entry} (he : e ∈ t.table.run.entries) :
    t.file.minKey ≤ e.key ∧ e.key ≤ t.file.maxKey := by
  rw [← FileMeta.covers_iff]
  exact ht.describes.covers he

theorem Table.Sound.min_le_max {t : Table} (ht : t.Sound) : t.file.minKey ≤ t.file.maxKey := by
  obtain ⟨e, he⟩ := List.exists_mem_of_ne_nil _ ht.nonempty
  exact (ht.covers he).1.trans (ht.covers he).2

/-- The files of a level below zero: each ends before the next begins. -/
def SortedLevel (level : List Table) : Prop :=
  level.Pairwise fun l r => l.file.maxKey < r.file.minKey

theorem coveringOrder_eq {key : Bytes} {t : Table} :
    coveringOrder key t = .eq ↔ t.file.minKey ≤ key ∧ key ≤ t.file.maxKey := by
  unfold coveringOrder
  split_ifs with hmax hmin
  · simp [hmax.not_ge]
  · simp [hmin.not_ge]
  · exact ⟨fun _ => ⟨not_lt.mp hmin, not_lt.mp hmax⟩, fun _ => rfl⟩

/-- A sorted level is in order for the binary search. -/
theorem SortedLevel.ordered {level : List Table} (hlevel : SortedLevel level)
    (hle : ∀ t ∈ level, t.file.minKey ≤ t.file.maxKey) (key : Bytes) :
    Ordered (coveringOrder key) level := by
  refine List.Pairwise.imp_of_mem (fun {l r} hl hr hlt => ⟨fun hgt => ?_, fun heq => ?_⟩) hlevel
  · have hkey : key < l.file.minKey := by
      unfold coveringOrder at hgt
      split_ifs at hgt with _ hmin
      exact hmin
    have hr' : key < r.file.minKey := (hkey.trans_le (hle l hl)).trans hlt
    rw [coveringOrder, if_neg (hr'.trans_le (hle r hr)).not_gt, if_pos hr']
  · have hkey : key < r.file.maxKey :=
      ((coveringOrder_eq.mp heq).2.trans_lt hlt).trans_le (hle r hr)
    unfold coveringOrder
    rw [if_neg hkey.not_gt]
    split_ifs <;> simp

/-- **Finding the covering file**: the search returns a file that covers the key, and there is one
whenever a file of the level does. -/
theorem covering_eq_some {level : List Table} {key : Bytes} {t : Table}
    (h : covering level key = some t) : t ∈ level ∧ t.file.minKey ≤ key ∧ key ≤ t.file.maxKey := by
  unfold covering at h
  rw [Option.bind_eq_some_iff] at h
  obtain ⟨i, hi, hget⟩ := h
  obtain ⟨x, hx, heq⟩ := binarySearchBy_some hi
  rw [hget] at hx
  obtain rfl := Option.some.inj hx
  exact ⟨List.mem_of_getElem? hget, coveringOrder_eq.mp heq⟩

theorem SortedLevel.covering_isSome {level : List Table} (hlevel : SortedLevel level)
    (hle : ∀ t ∈ level, t.file.minKey ≤ t.file.maxKey) {key : Bytes} {t : Table} (ht : t ∈ level)
    (hkey : t.file.minKey ≤ key ∧ key ≤ t.file.maxKey) : ∃ u, covering level key = some u := by
  obtain ⟨i, hi⟩ := exists_binarySearchBy (hlevel.ordered hle key) ht (coveringOrder_eq.mpr hkey)
  obtain ⟨x, hx, -⟩ := binarySearchBy_some hi
  exact ⟨x, by rw [covering, hi, Option.bind_some, hx]⟩

/-- At most one file of a sorted level covers a key. -/
theorem SortedLevel.eq_of_covers {level : List Table} (hlevel : SortedLevel level) {key : Bytes}
    {t u : Table} (ht : t ∈ level) (hu : u ∈ level)
    (htk : t.file.minKey ≤ key ∧ key ≤ t.file.maxKey)
    (huk : u.file.minKey ≤ key ∧ key ≤ u.file.maxKey) : t = u := by
  induction hlevel with
  | nil => cases ht
  | cons hfirst _ ih =>
    rcases List.mem_cons.mp ht with rfl | ht' <;> rcases List.mem_cons.mp hu with rfl | hu'
    · rfl
    · exact absurd (hfirst u hu') (not_lt.mpr (huk.1.trans htk.2))
    · exact absurd (hfirst t ht') (not_lt.mpr (htk.1.trans huk.2))
    · exact ih ht' hu'

/-- The search finds the file of a sorted level that covers the key. -/
theorem SortedLevel.covering_eq_some_iff {level : List Table} (hlevel : SortedLevel level)
    (hle : ∀ t ∈ level, t.file.minKey ≤ t.file.maxKey) {key : Bytes} {t : Table} :
    covering level key = some t ↔ t ∈ level ∧ t.file.minKey ≤ key ∧ key ≤ t.file.maxKey := by
  refine ⟨covering_eq_some, fun ⟨ht, hkey⟩ => ?_⟩
  obtain ⟨u, hu⟩ := hlevel.covering_isSome hle ht hkey
  obtain ⟨humem, hukey⟩ := covering_eq_some hu
  rw [hu, hlevel.eq_of_covers humem ht hukey hkey]

/-- Files that are sorted by smallest key and lie apart follow each other. -/
theorem sortedLevel_of_apart {level : List Table}
    (hle : ∀ t ∈ level, t.file.minKey ≤ t.file.maxKey)
    (hsorted : level.Pairwise fun l r => l.file.minKey ≤ r.file.minKey)
    (hapart : level.Pairwise fun l r => l.file.maxKey < r.file.minKey
      ∨ r.file.maxKey < l.file.minKey) : SortedLevel level := by
  refine List.Pairwise.imp_of_mem (fun {l r} _ hr h => ?_) (hapart.and hsorted)
  rcases h.1 with hlt | hlt
  · exact hlt
  · exact absurd (((hle r hr).trans_lt hlt).trans_le h.2) (lt_irrefl _)

/-- Files that are sorted by smallest key and do not overlap follow each other. -/
theorem sortedLevel_of_disjoint {level : List Table}
    (hle : ∀ t ∈ level, t.file.minKey ≤ t.file.maxKey)
    (hsorted : level.Pairwise fun l r => l.file.minKey ≤ r.file.minKey)
    (hdisjoint : level.Pairwise fun l r => l.file.overlaps r.file.minKey r.file.maxKey = false) :
    SortedLevel level := by
  refine sortedLevel_of_apart hle hsorted (hdisjoint.imp fun {l r} hapart => ?_)
  rwa [FileMeta.overlaps, Bool.and_eq_false_iff, decide_eq_false_iff_not, decide_eq_false_iff_not,
    not_le, not_le, or_comm] at hapart

/-- **The binary search is the linear one** on a level whose files are sorted and disjoint: it finds
the file that covers the key, and nothing if there is none. -/
theorem covering_eq_find {level : List Table} (hle : ∀ t ∈ level, t.file.minKey ≤ t.file.maxKey)
    (hsorted : level.Pairwise fun l r => l.file.minKey ≤ r.file.minKey)
    (hdisjoint : level.Pairwise fun l r => l.file.overlaps r.file.minKey r.file.maxKey = false)
    (key : Bytes) :
    (∀ t, covering level key = some t ↔ t ∈ level ∧ t.file.minKey ≤ key ∧ key ≤ t.file.maxKey)
      ∧ (covering level key = none ↔ ∀ t ∈ level, ¬(t.file.minKey ≤ key ∧ key ≤ t.file.maxKey))
      ∧ covering level key = level.find? fun t => t.file.covers key := by
  have hlevel := sortedLevel_of_disjoint hle hsorted hdisjoint
  have hnone : covering level key = none
      ↔ ∀ t ∈ level, ¬(t.file.minKey ≤ key ∧ key ≤ t.file.maxKey) := by
    rw [Option.eq_none_iff_forall_ne_some]
    refine forall_congr' fun t => ?_
    rw [Ne, hlevel.covering_eq_some_iff hle, not_and]
  refine ⟨fun t => hlevel.covering_eq_some_iff hle, hnone, ?_⟩
  cases hfind : level.find? fun t => t.file.covers key with
  | none =>
    rw [hnone]
    intro t ht
    rw [← FileMeta.covers_iff]
    exact List.find?_eq_none.mp hfind t ht
  | some t =>
    have hcovers := List.find?_some hfind
    rw [hlevel.covering_eq_some_iff hle, ← FileMeta.covers_iff]
    exact ⟨List.mem_of_find?_eq_some hfind, hcovers⟩

/-- A file with keys from `min` to `max`, for the search. -/
def rangeTable (min max : Bytes) : Table := ⟨⟨0, 1, min, max, 0, 0⟩, SsTable.write .empty⟩

/-- A key that is longer than the largest of one file and smaller than all of the next. -/
theorem covering_eq_find_gap :
    covering [rangeTable [1] [2], rangeTable [2, 0] [2, 0], rangeTable [3] [5]]
      [2, 0, 0] = none := by
  refine ((covering_eq_find ?_ ?_ ?_ [2, 0, 0]).2.1).mpr ?_
  · decide +kernel
  · decide +kernel
  · decide +kernel
  · decide +kernel

/-- When at most one element has an image, the images are the first one found. -/
theorem filterMap_eq_findSome {α β : Type*} {f : α → Option β} {l : List α}
    (h : l.Pairwise fun a b => f a = none ∨ f b = none) :
    l.filterMap f = (l.findSome? f).toList := by
  induction h with
  | nil => rfl
  | @cons a l hfirst _ ih =>
    cases ha : f a with
    | none => rw [List.filterMap_cons_none ha, List.findSome?_cons, ha, ih]
    | some b =>
      have hrest : l.filterMap f = [] := by
        rw [List.filterMap_eq_nil_iff]
        intro c hc
        rcases hfirst c hc with h | h
        · rw [ha] at h
          cases h
        · exact h
      rw [List.filterMap_cons_some ha, hrest, List.findSome?_cons, ha]
      rfl

/-- Two files of a sorted level hold no version of one key. -/
theorem SortedLevel.find_eq_none {level : List Table} (hlevel : SortedLevel level)
    (hsound : ∀ t ∈ level, t.Sound) (key : Bytes) : level.Pairwise fun l r =>
      l.table.run.find key = none ∨ r.table.run.find key = none := by
  refine List.Pairwise.imp_of_mem (fun {l r} hl hr hlt => ?_) hlevel
  cases hfl : l.table.run.find key with
  | none => exact Or.inl rfl
  | some e =>
    cases hfr : r.table.run.find key with
    | none => exact Or.inr rfl
    | some f =>
      obtain ⟨he, hek⟩ := Run.find_mem hfl
      obtain ⟨hf, hfk⟩ := Run.find_mem hfr
      have hle := ((hsound r hr).covers hf).1.trans (hfk.trans hek.symm).le
      exact absurd hlt (not_lt.mpr (hle.trans ((hsound l hl).covers he).2))

/-- The covering file is the only one of a sorted level that can hold a version of the key. -/
theorem SortedLevel.filterMap_find {level : List Table} (hlevel : SortedLevel level)
    (hsound : ∀ t ∈ level, t.Sound) (key : Bytes) :
    level.filterMap (fun t => t.table.run.find key)
      = ((covering level key).bind fun t => t.table.run.find key).toList := by
  rw [filterMap_eq_findSome (hlevel.find_eq_none hsound key)]
  congr 1
  cases hfirst : level.findSome? fun t => t.table.run.find key with
  | none =>
    cases hc : covering level key with
    | none => rfl
    | some t =>
      rw [List.findSome?_eq_none_iff] at hfirst
      exact (hfirst t (covering_eq_some hc).1).symm
  | some e =>
    obtain ⟨t, ht, hfind⟩ := List.exists_of_findSome?_eq_some hfirst
    obtain ⟨hmem, rfl⟩ := Run.find_mem hfind
    have hcovers := (hsound t ht).covers hmem
    obtain ⟨u, hu⟩ := hlevel.covering_isSome (fun t ht => (hsound t ht).min_le_max) ht hcovers
    obtain ⟨humem, hucovers⟩ := covering_eq_some hu
    obtain rfl := hlevel.eq_of_covers humem ht hucovers hcovers
    rw [hu]
    exact hfind.symm

/-! ### What `get` answers -/

/-- The first of several lookups that answers is the first version found. -/
theorem firstAnswer_map (found : List (Option Entry)) :
    firstAnswer (found.map Lookup.ofEntry) = (found.filterMap id).head?.bind Version.value := by
  induction found with
  | nil => rfl
  | cons o rest ih =>
    rw [List.map_cons, firstAnswer, answer_ofEntry]
    cases o with
    | none => exact ih
    | some e => rfl

/-- **`get` answers with the first version it meets**, when the files of each deeper level are
sound and sorted. -/
theorem State.get_eq_head (s : State) (key : Bytes)
    (hsorted : ∀ level ∈ s.levels.drop 1, SortedLevel level ∧ ∀ t ∈ level, t.Sound) :
    s.get key = (s.chain key).head?.bind Version.value := by
  -- below the first level only the covering table can hold the key
  have hdeep : ∀ levels : List (List Table),
      (∀ level ∈ levels, SortedLevel level ∧ ∀ t ∈ level, t.Sound) →
        (levels.filterMap fun level => (covering level key).map fun t =>
          t.table.run.find key).filterMap
            id = levelChain levels key := by
    intro levels
    induction levels with
    | nil => exact fun _ => rfl
    | cons level rest ih =>
      intro hall
      obtain ⟨hlevel, hsound⟩ := hall level List.mem_cons_self
      rw [levelChain, List.flatMap_cons, hlevel.filterMap_find hsound,
        ← levelChain, ← ih fun l hl => hall l (List.mem_cons_of_mem _ hl)]
      cases hc : covering level key with
      | none => simp [hc]
      | some t =>
        cases hf : t.table.run.find key <;> simp [hc, hf]
  have hlookups : s.lookups key = ([s.active.run.find key]
      ++ s.frozen.map (fun f => f.memtable.run.find key)
      ++ (s.levels.head?.getD []).map (fun t => t.table.run.find key)
      ++ (s.levels.drop 1).filterMap fun level =>
        (covering level key).map fun t => t.table.run.find key).map Lookup.ofEntry := by
    simp only [lookups, List.map_append, List.map_map, List.map_filterMap, Option.map_map]
    congr 2
    · congr 1
      funext t
      exact t.table.get_eq key
    · funext level
      cases covering level key with
      | none => rfl
      | some t => exact congrArg some (t.table.get_eq key)
  rw [get, hlookups, firstAnswer_map]
  congr 2
  simp only [List.filterMap_append, hdeep _ hsorted]
  have hlevels : levelChain s.levels key
      = (s.levels.head?.getD []).filterMap (fun t => t.table.run.find key)
        ++ levelChain (s.levels.drop 1) key := by
    cases s.levels with
    | nil => rfl
    | cons level rest => rfl
  rw [chain, memChain, hlevels, List.filterMap_map, List.filterMap_map]
  simp only [Function.comp_def, id, List.append_assoc]
  cases s.active.run.find key <;> rfl

end Lsmkv
