import Lsmkv.Compaction.Merge
import Lsmkv.Compaction.Plan

/-!
# The outputs of a compaction (`Shared::write_merged`)

The merged stream loses the tombstones that shadow nothing below the output level, and what is left
is cut into files of bounded size.  `writeMerged` is the list of runs the files hold;
`find_writeMerged` says which entry of a key the outputs have, and `cutRun_pairwise` that their
keys follow each other.
-/

namespace Lsmkv

/-- The part of a run that a test keeps. -/
def Run.filter {κ ν : Type*} [LinearOrder κ] (r : Run κ ν) (keep : Version κ ν → Bool) : Run κ ν :=
  ⟨r.entries.filter keep, r.sorted.filter keep⟩

namespace Compaction

/-- The loop of `write_merged`: entries go to the open writer, which is sealed once it has written
`target` bytes. -/
def cut (target : ℕ) : Option (Writer × List Entry) → List Entry → List (List Entry)
  | none, [] => []
  | some (_, added), [] => [added]
  | output, e :: rest =>
    let (writer, added) := output.getD (Writer.create, [])
    let writer := writer.add e
    let added := added ++ [e]
    if target ≤ writer.bytesWritten then added :: cut target none rest
    else cut target (some (writer, added)) rest

/-- Cutting loses nothing. -/
theorem flatten_cut (target : ℕ) (l : List Entry) (output : Option (Writer × List Entry)) :
    (cut target output l).flatten = (output.elim [] Prod.snd) ++ l := by
  induction l generalizing output with
  | nil =>
    cases output with
    | none => rfl
    | some p => simp [cut]
  | cons e rest ih =>
    cases output with
    | none =>
      rw [cut]
      dsimp only [Option.getD]
      split_ifs
      · simp [ih]
      · simp [ih]
    | some p =>
      rw [cut]
      dsimp only [Option.getD]
      split_ifs
      · simp [ih]
      · simp [ih]

/-- No output is empty. -/
theorem ne_nil_of_mem_cut {target : ℕ} {l : List Entry} {output : Option (Writer × List Entry)}
    (houtput : ∀ p ∈ output, p.2 ≠ []) {c : List Entry} (hc : c ∈ cut target output l) :
    c ≠ [] := by
  induction l generalizing output with
  | nil =>
    cases output with
    | none => cases hc
    | some p =>
      rw [cut, List.mem_singleton] at hc
      exact hc ▸ houtput p rfl
  | cons e rest ih =>
    have hstep : ∀ p : Writer × List Entry,
        c ∈ (if target ≤ (p.1.add e).bytesWritten then (p.2 ++ [e]) :: cut target none rest
          else cut target (some (p.1.add e, p.2 ++ [e])) rest) → c ≠ [] := by
      intro p hc
      split_ifs at hc
      · rcases List.mem_cons.mp hc with rfl | hc
        · simp
        · exact ih (by simp) hc
      · refine ih (fun q hq => ?_) hc
        obtain rfl := Option.some.inj hq
        simp
    cases output with
    | none => exact hstep (Writer.create, []) (by rw [cut] at hc; exact hc)
    | some p => exact hstep p (by rw [cut] at hc; exact hc)

theorem sorted_of_mem_cut {run : Run Bytes Bytes} {target : ℕ} {c : List Entry}
    (hc : c ∈ cut target none run.entries) : c.Pairwise fun v w => v.key < w.key := by
  have hflat := flatten_cut target run.entries none
  have hsub : c.Sublist run.entries := by
    have := List.sublist_flatten_of_mem hc
    rwa [hflat] at this
  exact run.sorted.sublist hsub

/-- A run cut into runs of bounded size. -/
def cutRun (target : ℕ) (run : Run Bytes Bytes) : List (Run Bytes Bytes) :=
  (cut target none run.entries).attach.map fun c => ⟨c.1, sorted_of_mem_cut c.2⟩

/-- The runs a compaction writes out, one for each output file. -/
def writeMerged (snapshot : Snapshot) (plan : Plan) (target : ℕ) (inputs : List SsTable) :
    List (Run Bytes Bytes) :=
  cutRun target ((Merge.mergeTables inputs).filter fun e =>
    e.value.isSome || tombstoneNeeded snapshot plan.outputLevel e.key)

/-! ### What the outputs hold -/

theorem map_entries_cutRun (target : ℕ) (run : Run Bytes Bytes) :
    (cutRun target run).map Run.entries = cut target none run.entries := by
  rw [cutRun, List.map_map]
  exact List.attach_map_subtype_val _

theorem flatten_cutRun (target : ℕ) (run : Run Bytes Bytes) :
    ((cutRun target run).map Run.entries).flatten = run.entries := by
  rw [map_entries_cutRun, flatten_cut]
  rfl

theorem mem_cutRun {target : ℕ} {run : Run Bytes Bytes} {e : Entry} :
    (∃ r ∈ cutRun target run, e ∈ r.entries) ↔ e ∈ run.entries := by
  rw [← flatten_cutRun target run]
  simp

/-- The keys of an output come before the keys of the next ones. -/
theorem cutRun_pairwise (target : ℕ) (run : Run Bytes Bytes) :
    (cutRun target run).Pairwise fun r r' =>
      ∀ e ∈ r.entries, ∀ f ∈ r'.entries, e.key < f.key := by
  have hsorted := run.sorted
  rw [← flatten_cutRun target run, List.pairwise_flatten, List.pairwise_map] at hsorted
  exact hsorted.2

theorem ne_nil_of_mem_cutRun {target : ℕ} {run r : Run Bytes Bytes} (hr : r ∈ cutRun target run) :
    r.entries ≠ [] := by
  have hmem : r.entries ∈ cut target none run.entries := by
    rw [← map_entries_cutRun]
    exact List.mem_map_of_mem hr
  exact ne_nil_of_mem_cut (by simp) hmem

/-- Of runs whose keys follow each other at most one holds a key. -/
theorem filterMap_find_eq {runs : List (Run Bytes Bytes)} {key : Bytes}
    (hpair : runs.Pairwise fun r r' => ∀ e ∈ r.entries, ∀ f ∈ r'.entries, e.key < f.key) :
    runs.filterMap (fun r => r.find key)
      = ((runs.map Run.entries).flatten.find? fun e => e.key = key).toList := by
  induction runs with
  | nil => rfl
  | cons r runs ih =>
    obtain ⟨hr, hruns⟩ := List.pairwise_cons.mp hpair
    rw [List.map_cons, List.flatten_cons, List.find?_append, List.filterMap_cons, ih hruns]
    cases hfind : r.find key with
    | none =>
      have hnone : r.entries.find? (fun e => e.key = key) = none := hfind
      rw [hnone]
      rfl
    | some e =>
      have hsome : r.entries.find? (fun e => e.key = key) = some e := hfind
      obtain ⟨hmem, hkey⟩ := Run.find_mem hfind
      have hrest : (runs.map Run.entries).flatten.find? (fun e => e.key = key) = none := by
        rw [List.find?_eq_none]
        intro f hf
        obtain ⟨es, hes, hfes⟩ := List.mem_flatten.mp hf
        obtain ⟨r', hr', rfl⟩ := List.mem_map.mp hes
        have := hr r' hr' e hmem f hfes
        rw [hkey] at this
        simpa using this.ne'
      rw [hsome, hrest]
      rfl

/-- The outputs hold at most one entry of a key: the newest of the inputs, unless it is a
tombstone that shadows nothing. -/
theorem find_writeMerged (snapshot : Snapshot) (plan : Plan) (target : ℕ) (inputs : List SsTable)
    (key : Bytes) :
    (writeMerged snapshot plan target inputs).filterMap (fun r => r.find key)
      = (((Merge.mergeTables inputs).find key).filter fun e =>
          e.value.isSome || tombstoneNeeded snapshot plan.outputLevel e.key).toList := by
  rw [writeMerged, filterMap_find_eq (cutRun_pairwise _ _), flatten_cutRun]
  congr 1
  set keep : Entry → Bool := fun e =>
    e.value.isSome || tombstoneNeeded snapshot plan.outputLevel e.key
  set run := Merge.mergeTables inputs
  change (run.filter keep).find key = _
  cases hfind : run.find key with
  | none =>
    rw [Option.filter_none, Run.find_eq_none_iff]
    intro e he
    exact Run.find_eq_none_iff.mp hfind e (List.mem_of_mem_filter he)
  | some e =>
    obtain ⟨hmem, hkey⟩ := Run.find_mem hfind
    by_cases hkeep : keep e = true
    · rw [Option.filter_some_pos hkeep, Run.find_eq_some_iff]
      exact ⟨List.mem_filter.mpr ⟨hmem, hkeep⟩, hkey⟩
    · rw [Option.filter_some_neg (Bool.eq_false_iff.mpr hkeep), Run.find_eq_none_iff]
      intro f hf hfkey
      obtain ⟨hfmem, hfkeep⟩ := List.mem_filter.mp hf
      have : f = e := by
        have := Run.find_of_mem hfmem
        rw [hfkey, hfind] at this
        exact (Option.some.inj this).symm
      exact hkeep (this ▸ hfkeep)

/-- Every entry of an output comes from an input. -/
theorem mem_writeMerged {snapshot : Snapshot} {plan : Plan} {target : ℕ} {inputs : List SsTable}
    {r : Run Bytes Bytes} (hr : r ∈ writeMerged snapshot plan target inputs) {e : Entry}
    (he : e ∈ r.entries) : ∃ t ∈ inputs, e ∈ t.run.entries := by
  have hmem : e ∈ Merge.merged inputs :=
    List.mem_of_mem_filter (mem_cutRun.mp ⟨r, hr, he⟩)
  exact ((Merge.merged_spec inputs).2.1 e hmem).1

end Compaction

end Lsmkv
