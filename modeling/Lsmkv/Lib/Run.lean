import Lsmkv.Lib.Version

/-!
# Sorted runs

A `Run` holds at most one version of each key, in key order.  It is what a memtable keeps and what
a sorted file stores: `find` is the lookup, `insert` puts a version in place of the one its key
had, and `add` keeps the newer of the two.  A run filled by `add` finds the newest version of every
key of the history it was given (`find_addAll`).
-/

namespace Lsmkv

variable {κ ν : Type*} [LinearOrder κ] [DecidableEq κ]

/-- A list of versions with strictly increasing keys. -/
structure Run (κ ν : Type*) [LinearOrder κ] where
  entries : List (Version κ ν)
  sorted : entries.Pairwise fun v w => v.key < w.key

/-- Puts `v` at its place, instead of the version its key had. -/
def insertVersion (v : Version κ ν) : List (Version κ ν) → List (Version κ ν)
  | [] => [v]
  | w :: rest =>
    if v.key < w.key then v :: w :: rest
    else if v.key = w.key then v :: rest
    else w :: insertVersion v rest

theorem mem_insertVersion {v x : Version κ ν} {l : List (Version κ ν)}
    (h : x ∈ insertVersion v l) : x = v ∨ x ∈ l := by
  induction l with
  | nil => exact Or.inl (List.mem_singleton.mp h)
  | cons w rest ih =>
    rw [insertVersion] at h
    split_ifs at h
    · exact List.mem_cons.mp h
    · rcases List.mem_cons.mp h with h | h
      · exact Or.inl h
      · exact Or.inr (List.mem_cons_of_mem _ h)
    · rcases List.mem_cons.mp h with h | h
      · exact Or.inr (h ▸ List.mem_cons_self)
      · exact (ih h).imp_right (List.mem_cons_of_mem _)

theorem sorted_insertVersion (v : Version κ ν) {l : List (Version κ ν)}
    (hl : l.Pairwise fun v w => v.key < w.key) :
    (insertVersion v l).Pairwise fun v w => v.key < w.key := by
  induction l with
  | nil => exact List.pairwise_singleton _ _
  | cons w rest ih =>
    obtain ⟨hw, hrest⟩ := List.pairwise_cons.mp hl
    rw [insertVersion]
    split_ifs with hlt heq
    · refine List.pairwise_cons.mpr ⟨fun x hx => ?_, hl⟩
      rcases List.mem_cons.mp hx with rfl | hx
      · exact hlt
      · exact hlt.trans (hw x hx)
    · exact List.pairwise_cons.mpr ⟨fun x hx => heq ▸ hw x hx, hrest⟩
    · refine List.pairwise_cons.mpr ⟨fun x hx => ?_, ih hrest⟩
      rcases mem_insertVersion hx with rfl | hx
      · exact lt_of_le_of_ne (not_lt.mp hlt) (Ne.symm heq)
      · exact hw x hx

namespace Run

/-- The run that holds nothing. -/
def empty : Run κ ν := ⟨[], List.Pairwise.nil⟩

instance : Inhabited (Run κ ν) := ⟨empty⟩

omit [DecidableEq κ] in
@[ext]
theorem ext {r r' : Run κ ν} (h : r.entries = r'.entries) : r = r' := by
  cases r
  cases r'
  congr

/-- The version of `k`. -/
def find (r : Run κ ν) (k : κ) : Option (Version κ ν) := r.entries.find? fun v => v.key = k

/-- The run with `v` as the version of its key. -/
def insert (r : Run κ ν) (v : Version κ ν) : Run κ ν :=
  ⟨insertVersion v r.entries, sorted_insertVersion v r.sorted⟩

/-- The run with the newer of `v` and what it held. -/
def add (r : Run κ ν) (v : Version κ ν) : Run κ ν :=
  match r.find v.key with
  | none => r.insert v
  | some w => if v.seq ≤ w.seq then r else r.insert v

/-- The run after a history, in list order. -/
def addAll (r : Run κ ν) (h : List (Version κ ν)) : Run κ ν := h.foldl add r

/-! ### Lookup -/

theorem find_mem {r : Run κ ν} {k : κ} {v : Version κ ν} (h : r.find k = some v) :
    v ∈ r.entries ∧ v.key = k :=
  ⟨List.mem_of_find?_eq_some h, by simpa using List.find?_some h⟩

/-- The run finds every version it holds. -/
theorem find_of_mem {r : Run κ ν} {v : Version κ ν} (h : v ∈ r.entries) :
    r.find v.key = some v := by
  obtain ⟨entries, sorted⟩ := r
  change entries.find? (fun w => w.key = v.key) = some v
  induction entries with
  | nil => cases h
  | cons w rest ih =>
    obtain ⟨hw, hrest⟩ := List.pairwise_cons.mp sorted
    rcases List.mem_cons.mp h with rfl | h
    · exact List.find?_cons_of_pos (by simp)
    · rw [List.find?_cons_of_neg (by simpa using (hw v h).ne)]
      exact ih hrest h

theorem find_eq_some_iff {r : Run κ ν} {k : κ} {v : Version κ ν} :
    r.find k = some v ↔ v ∈ r.entries ∧ v.key = k :=
  ⟨find_mem, fun ⟨hmem, hk⟩ => hk ▸ find_of_mem hmem⟩

theorem find_eq_none_iff {r : Run κ ν} {k : κ} :
    r.find k = none ↔ ∀ v ∈ r.entries, v.key ≠ k := by
  simp [find]

/-- A run is determined by its lookups. -/
theorem mem_iff_find {r : Run κ ν} {v : Version κ ν} : v ∈ r.entries ↔ r.find v.key = some v :=
  ⟨find_of_mem, fun h => (find_mem h).1⟩

/-! ### Insertion -/

theorem find_insertVersion (v : Version κ ν) (k : κ) (l : List (Version κ ν)) :
    (insertVersion v l).find? (fun w => w.key = k)
      = if v.key = k then some v else l.find? fun w => w.key = k := by
  by_cases hk : v.key = k
  · rw [if_pos hk]
    induction l with
    | nil => exact List.find?_cons_of_pos (by simpa using hk)
    | cons w rest ih =>
      rw [insertVersion]
      split_ifs with hlt heq
      · exact List.find?_cons_of_pos (by simpa using hk)
      · exact List.find?_cons_of_pos (by simpa using hk)
      · rw [List.find?_cons_of_neg (by simpa using fun h => heq (hk.trans h.symm)), ih]
  · rw [if_neg hk]
    induction l with
    | nil => exact List.find?_cons_of_neg (by simpa using hk)
    | cons w rest ih =>
      rw [insertVersion]
      split_ifs with hlt heq
      · exact List.find?_cons_of_neg (by simpa using hk)
      · rw [List.find?_cons_of_neg (by simpa using hk),
          List.find?_cons_of_neg (by simpa using heq ▸ hk)]
      · rw [List.find?_cons, List.find?_cons, ih]

theorem find_insert (r : Run κ ν) (v : Version κ ν) (k : κ) :
    (r.insert v).find k = if v.key = k then some v else r.find k :=
  find_insertVersion v k r.entries

theorem add_of_find_none {r : Run κ ν} {v : Version κ ν} (h : r.find v.key = none) :
    r.add v = r.insert v := by
  rw [add, h]

theorem add_of_find_some {r : Run κ ν} {v w : Version κ ν} (h : r.find v.key = some w) :
    r.add v = if v.seq ≤ w.seq then r else r.insert v := by
  rw [add, h]

theorem mem_add {r : Run κ ν} {v x : Version κ ν} (h : x ∈ (r.add v).entries) :
    x = v ∨ x ∈ r.entries := by
  cases hf : r.find v.key with
  | none =>
    rw [add_of_find_none hf] at h
    exact mem_insertVersion h
  | some w =>
    rw [add_of_find_some hf] at h
    split_ifs at h
    · exact Or.inr h
    · exact mem_insertVersion h

theorem find_add (r : Run κ ν) (v : Version κ ν) (k : κ) :
    (r.add v).find k = if v.key = k then Version.later (r.find k) v else r.find k := by
  cases hw : r.find v.key with
  | none =>
    rw [add_of_find_none hw, find_insert]
    split_ifs with hk
    · rw [← hk, hw, Version.later]
    · rfl
  | some w =>
    rw [add_of_find_some hw]
    by_cases hle : v.seq ≤ w.seq
    · rw [if_pos hle]
      split_ifs with hk
      · rw [← hk, hw, Version.later, if_neg (not_lt.mpr hle)]
      · rfl
    · rw [if_neg hle, find_insert]
      split_ifs with hk
      · rw [← hk, hw, Version.later, if_pos (not_le.mp hle)]
      · rfl

/-- **A run filled from a history** finds the newest version of every key. -/
theorem find_addAll (h : List (Version κ ν)) (k : κ) : (empty.addAll h).find k = newest h k := by
  suffices hall : ∀ r : Run κ ν, (r.addAll h).find k
      = h.foldl (fun best v => if v.key = k then Version.later best v else best) (r.find k) from
    hall empty
  induction h with
  | nil => exact fun _ => rfl
  | cons v h ih =>
    intro r
    rw [addAll, List.foldl_cons, List.foldl_cons, ← find_add]
    exact ih (r.add v)

end Run

end Lsmkv
