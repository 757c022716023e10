import Lsmkv.Compaction.Outputs
import Lsmkv.Compaction.Scores
import Lsmkv.Engine.Core

/-!
# Compaction settles (`Shared::compact_all`, `Shared::compact_once`)

A round of compaction moves the entries it reads one level down, or drops them.  Merging may make
more files and more bytes of them, so the measure counts entries: each weighs as much as the levels
it can still go down.  With a fanout of two or more the limit of a level saturates after 64 levels,
and a level at a saturated limit is never past it, so no entry goes further.

All that is asked of the way a round is planned is `Drains`.  Exact scores have it as long as no
byte total overflows (`drains_exactPlan`), and the rounded ones of the code whatever the totals are
(`drains_plan`).

`weight_compactOnce` is the step.  A round fails exactly if a file it is about to write has a length
that does not fit (`Fitting`), and then the file set stays, so the next one makes the same plan and
fails again (`Store.Sound.after_of_not_fitting`).  Together: compaction settles exactly when each
round is fitting (`exists_settled_iff`).
-/

namespace Lsmkv

namespace Compaction

/-- The last level whose limit does not saturate. -/
def deepestDrained : ℕ := 64

theorem budget_of_lt {level levelBytes fanout : ℕ} (hlevel : deepestDrained < level)
    (hbytes : 1 ≤ levelBytes) (hfanout : 2 ≤ fanout) :
    budget level levelBytes fanout = u64Limit - 1 := by
  have hexp : 64 ≤ min level (u32Limit - 1) - 1 := by
    have : 65 < u32Limit := by decide
    unfold deepestDrained at hlevel
    omega
  have hpow : u64Limit ≤ fanout ^ (min level (u32Limit - 1) - 1) :=
    calc u64Limit = 2 ^ 64 := rfl
      _ ≤ fanout ^ 64 := Nat.pow_le_pow_left hfanout 64
      _ ≤ fanout ^ (min level (u32Limit - 1) - 1) := Nat.pow_le_pow_right (by omega) hexp
  have hsat : saturate (fanout ^ (min level (u32Limit - 1) - 1)) = u64Limit - 1 := by
    unfold saturate
    omega
  rw [budget, hsat, saturate]
  exact min_eq_right (Nat.le_mul_of_pos_left _ hbytes)

/-- What a round relies on: the plan reads what `inputs_for` gives for a level that holds a file and
whose limit does not saturate. -/
structure Drains (snapshot : Snapshot) (p : Plan) : Prop where
  inputs : p.inputs = inputsFor snapshot p.level
  atLevel : snapshot.atLevel p.level ≠ []
  level_le : p.level ≤ deepestDrained

/-- A level that is past its limit is one to drain. -/
theorem drains_of_lt {snapshot : Snapshot} {levelBytes fanout bytes : ℕ} {p : Plan}
    (hinputs : p.inputs = inputsFor snapshot p.level) (hlevelBytes : 1 ≤ levelBytes)
    (hfanout : 2 ≤ fanout) (hpos : 1 ≤ p.level) (hlimit : bytes < u64Limit)
    (hpast : budget p.level levelBytes fanout = 0 ∨ budget p.level levelBytes fanout < bytes)
    (hempty : snapshot.atLevel p.level = [] → bytes = 0) : Drains snapshot p := by
  have hbudget : budget p.level levelBytes fanout ≠ 0 := fun hzero => by
    have := (budget_eq_zero hpos).mp hzero
    omega
  have hlt := hpast.resolve_left hbudget
  refine ⟨hinputs, fun h => ?_, ?_⟩
  · have := hempty h
    omega
  · by_contra hdeep
    have := budget_of_lt (not_le.mp hdeep) hlevelBytes hfanout
    omega

theorem drains_of_triggered {snapshot : Snapshot} {l0Trigger : ℕ} {p : Plan}
    (hinputs : p.inputs = inputsFor snapshot p.level) (hlevel : p.level = 0)
    (htrigger : Triggered snapshot l0Trigger) : Drains snapshot p := by
  refine ⟨hinputs, ?_, by omega⟩
  rw [hlevel]
  exact List.ne_nil_of_length_pos (htrigger.2.trans_le htrigger.1)

/-- The scores of the code choose a level to drain, whatever the byte totals are. -/
theorem drains_plan {snapshot : Snapshot} {l0Trigger levelBytes fanout : ℕ} {p : Plan}
    (h : plan snapshot l0Trigger levelBytes fanout = some p) (hbytes : 1 ≤ levelBytes)
    (hfanout : 2 ≤ fanout) : Drains snapshot p := by
  cases picks_plan h with
  | level _ hpast _ _ =>
    rcases hpast with ⟨hlevel, htrigger⟩ | ⟨hpos, hscore⟩
    · exact drains_of_triggered (plan_inputs h) hlevel htrigger
    · rw [score, levelScore, if_neg (by omega)] at hscore
      have hlimit : snapshot.bytesAtLevel p.level < u64Limit := Nat.mod_lt _ (by decide)
      exact drains_of_lt (plan_inputs h) hbytes hfanout hpos hlimit (pos_of_one_lt_ratio hscore)
        fun h => by rw [Snapshot.bytesAtLevel, Snapshot.exactBytesAtLevel, h]; rfl

/-- The entries of files, each as often as it can still go down a level. -/
def weight (files : List FileMeta) : ℕ :=
  (files.map fun file => file.entries * (deepestDrained + 1 - file.level)).sum

theorem weight_append (files files' : List FileMeta) :
    weight (files ++ files') = weight files + weight files' := by
  rw [weight, List.map_append, List.sum_append]
  rfl

theorem weight_of_level {files : List FileMeta} {level : ℕ}
    (h : ∀ file ∈ files, file.level = level) :
    weight files = (files.map FileMeta.entries).sum * (deepestDrained + 1 - level) := by
  have hmap : files.map (fun file => file.entries * (deepestDrained + 1 - file.level))
      = files.map fun file => file.entries * (deepestDrained + 1 - level) :=
    List.map_congr_left fun file hfile => by rw [h file hfile]
  rw [weight, hmap, List.sum_map_mul_right]

theorem weight_perm {files files' : List FileMeta} (h : files.Perm files') :
    weight files = weight files' := (h.map _).sum_eq

end Compaction

namespace Sst

/-- What `compact_once` reads and changes of a store. -/
structure Store where
  snapshot : Snapshot
  /-- The open files, of all levels. -/
  tables : List Table
  nextNumber : ℕ
  /-- What the log answers as its last sequence number. -/
  lastSeq : ℕ

namespace Store

/-- The open file with this number, if the store still holds it. -/
def find (s : Store) (number : ℕ) : Option SsTable :=
  (s.tables.find? fun t => t.file.number = number).map Table.table

/-- The tables a compaction reads. -/
def inputTables (s : Store) (plan : Plan) : List SsTable :=
  plan.inputs.filterMap fun file => s.find file.number

/-- The store once the manifest names the outputs of a compaction instead of its inputs. -/
def commit (s : Store) (plan : Plan) (outputs : List Table) (next : ℕ) : Store :=
  { s with
    snapshot := s.snapshot.change (outputs.map Table.file) plan.inputNumbers s.lastSeq next
    tables := s.tables.filter (fun t => t.file.number ∉ plan.inputNumbers) ++ outputs
    nextNumber := next }

/-- Runs one compaction, and reports whether there was one to run.  How it is planned is a
parameter: `Compaction.plan`, or `Compaction.exactPlan` if scores are read as exact quotients. -/
def compactOnce (choose : Snapshot → ℕ → ℕ → ℕ → Option Plan) (config : Config) (s : Store) :
    Except Error Bool × Store :=
  match choose s.snapshot config.l0Trigger config.levelBytes config.fanout with
  | none => (.ok false, s)
  | some plan =>
    let inputs := s.inputTables plan
    if inputs.length ≠ plan.inputs.length then (.ok false, s)
    else
      match writeMerged s.snapshot plan config.targetBytes inputs s.nextNumber with
      | (.error err, next) => (.error err, { s with nextNumber := next })
      | (.ok outputs, next) => (.ok true, s.commit plan outputs next)

/-- The store after so many rounds. -/
def after (choose : Snapshot → ℕ → ℕ → ℕ → Option Plan) (config : Config) (n : ℕ) (s : Store) :
    Store :=
  (fun s => (s.compactOnce choose config).2)^[n] s

/-- Every file that a round is about to write has lengths that fit their fields.  The files hold the
runs that the merge of the inputs is cut into, once the tombstones that shadow nothing are dropped;
`fits_iff` has the lengths as functions of the entries. -/
def Fitting (choose : Snapshot → ℕ → ℕ → ℕ → Option Plan) (config : Config) (s : Store) : Prop :=
  ∀ p merged, choose s.snapshot config.l0Trigger config.levelBytes config.fanout = some p →
    Merge.IsMerge ((s.inputTables p).map SsTable.source) merged →
    ∀ es ∈ Compaction.cut config.targetBytes none (merged.filter (kept s.snapshot p.outputLevel)),
      Fits es

/-- The manifest names open files, each by a number of its own, and each holds entries in key
order. -/
structure Sound (s : Store) : Prop where
  numbers : (s.snapshot.files.map FileMeta.number).Nodup
  fresh : ∀ file ∈ s.snapshot.files, file.number < s.nextNumber
  tables : ∀ t ∈ s.tables, t.file.number < s.nextNumber
  holds : ∀ file ∈ s.snapshot.files, ∃ t es, s.find file.number = some t
    ∧ Yields Scan.next t.scan (es.map .ok) ∧ es.Pairwise (fun v w => v.key < w.key) ∧ es ≠ []
    ∧ file.entries = es.length

variable {s : Store} {config : Config} {choose : Snapshot → ℕ → ℕ → ℕ → Option Plan}

/-! ### What a round reads -/

/-- The files of the manifest are open, can be read to their ends, and hold as many entries as it
says. -/
theorem Sound.inputs (hs : s.Sound) (files : List FileMeta) {inputs : List SsTable}
    (hinputs : files.filterMap (fun file => s.find file.number) = inputs)
    (hfiles : ∀ file ∈ files, file ∈ s.snapshot.files) :
    inputs.length = files.length
      ∧ (∀ t ∈ inputs, (t.source.entries.Pairwise fun v w => v.key < w.key)
        ∧ t.source.failure = none)
      ∧ (inputs.flatMap fun t => t.source.entries).length = (files.map FileMeta.entries).sum := by
  induction files generalizing inputs with
  | nil =>
    subst hinputs
    simp
  | cons file files ih =>
    obtain ⟨hfile, hrest⟩ := List.forall_mem_cons.mp hfiles
    obtain ⟨t, es, hfind, hyields, hes, -, hentries⟩ := hs.holds file hfile
    have hsource := source_eq hyields
    rw [List.filterMap_cons, hfind] at hinputs
    subst hinputs
    obtain ⟨hlen, hsorted, hsum⟩ := ih rfl hrest
    refine ⟨by rw [List.length_cons, List.length_cons, hlen],
      List.forall_mem_cons.mpr ⟨?_, hsorted⟩, ?_⟩
    · rw [hsource]
      exact ⟨hes, rfl⟩
    · rw [List.flatMap_cons, List.length_append, hsum, hsource, List.map_cons,
        List.sum_cons, hentries]

/-- A merge has no more entries than its sources. -/
theorem length_le_of_isMerge {inputs : List SsTable} {merged : List Entry}
    (h : Merge.IsMerge (inputs.map SsTable.source) merged) :
    merged.length ≤ (inputs.flatMap fun t => t.source.entries).length := by
  have hnodup : merged.Nodup := h.sorted.imp fun hlt heq => (heq ▸ hlt).false
  refine (List.subperm_of_subset hnodup fun e he => ?_).length_le
  obtain ⟨i, source, hi, hmem, -⟩ := h.newest e he
  obtain ⟨t, ht, rfl⟩ := List.mem_map.mp (List.mem_of_getElem? hi)
  exact List.mem_flatMap.mpr ⟨t, ht, hmem⟩

/-- The outputs of a round hold what they were cut from. -/
theorem sum_entries_of_stored {level : ℕ} {outputs : List Table} {chunks : List (List Entry)}
    (h : List.Forall₂ (Stored level) outputs chunks) :
    ((outputs.map Table.file).map FileMeta.entries).sum = chunks.flatten.length := by
  induction h with
  | nil => rfl
  | @cons t es outputs chunks hstored _ ih =>
    have hentries : t.file.entries = es.length := by
      rw [hstored.file, hstored.table]
      rfl
    rw [List.map_cons, List.map_cons, List.sum_cons, ih, hentries, List.flatten_cons,
      List.length_append]

/-! ### The plan of a round -/

theorem one_le_levelBytes (hbytes : 1 ≤ config.memtableBytes) (hfanout : 2 ≤ config.fanout) :
    1 ≤ config.levelBytes := by
  have htarget : config.targetBytes ≠ 0 := fun h => by
    have := Compaction.saturate_eq_zero.mp h
    omega
  have hlevel : config.levelBytes ≠ 0 := fun h => by
    rcases Nat.mul_eq_zero.mp (Compaction.saturate_eq_zero.mp h) with h | h
    · exact htarget h
    · omega
  omega

/-- The inputs of a plan are the files of the manifest with their numbers. -/
theorem perm_inputsFor {snapshot : Snapshot} (h : (snapshot.files.map FileMeta.number).Nodup)
    (level : ℕ) : (Compaction.inputsFor snapshot level).Perm
      (snapshot.files.filter fun file =>
        file.number ∈ (Compaction.inputsFor snapshot level).map FileMeta.number) := by
  have hfiles : snapshot.files.Nodup := h.of_map
  have hlevel : ∀ k, (snapshot.atLevel k).Nodup := fun k => hfiles.filter _
  have hinputs : (Compaction.inputsFor snapshot level).Nodup := by
    refine List.Nodup.append ?_ ((hlevel _).filter _) fun file hown hbelow => ?_
    · unfold Compaction.drained
      split_ifs with hzero
      · exact hlevel 0
      · cases (snapshot.atLevel level).argmin FileMeta.number with
        | none => exact List.nodup_nil
        | some file => exact List.nodup_singleton file
    · have := (Compaction.mem_drained hown).2
      have := (Snapshot.mem_atLevel.mp (List.mem_of_mem_filter hbelow)).2
      omega
  refine (List.perm_ext_iff_of_nodup hinputs (hfiles.filter _)).mpr fun file => ?_
  rw [List.mem_filter, decide_eq_true_iff]
  constructor
  · intro hmem
    exact ⟨(Compaction.inputsFor_subset hmem).1, List.mem_map_of_mem hmem⟩
  · rintro ⟨hmem, hnumber⟩
    obtain ⟨other, hother, heq⟩ := List.mem_map.mp hnumber
    -- a number names one file
    rwa [← List.inj_on_of_nodup_map h (Compaction.inputsFor_subset hother).1 hmem heq]

/-- What a plan reads of a sound store. -/
theorem Sound.inputTables (hs : s.Sound) {p : Plan} (hd : Compaction.Drains s.snapshot p) :
    (s.inputTables p).length = p.inputs.length
      ∧ (∀ t ∈ s.inputTables p, (t.source.entries.Pairwise fun v w => v.key < w.key)
        ∧ t.source.failure = none)
      ∧ ((s.inputTables p).flatMap fun t => t.source.entries).length
        = (p.inputs.map FileMeta.entries).sum :=
  hs.inputs p.inputs rfl fun file hfile => by
    rw [hd.inputs] at hfile
    exact (Compaction.inputsFor_subset hfile).1

/-- **What a round with something to do does.**  If what it is about to write fits, it is written
and committed; if not, the round fails, whatever the next file number is, and uses up numbers
only. -/
theorem Sound.compactOnce (hs : s.Sound) {p : Plan} (hd : Compaction.Drains s.snapshot p)
    (hplan : choose s.snapshot config.l0Trigger config.levelBytes config.fanout = some p) :
    (¬ s.Fitting choose config ∧ ∀ next, ∃ len last,
      Store.compactOnce choose config { s with nextNumber := next }
        = (.error (.tooLarge len), { s with nextNumber := last }))
    ∨ s.Fitting choose config ∧ ∃ merged outputs next,
      Merge.IsMerge ((s.inputTables p).map SsTable.source) merged
        ∧ List.Forall₂ (Stored p.outputLevel) outputs (Compaction.cut config.targetBytes none
          (merged.filter (kept s.snapshot p.outputLevel)))
        ∧ s.nextNumber ≤ next
        ∧ outputs.map (fun t => t.file.number) = List.range' s.nextNumber (next - s.nextNumber)
        ∧ s.compactOnce choose config = (.ok true, s.commit p outputs next) := by
  obtain ⟨hlength, hinputs, -⟩ := hs.inputTables hd
  have hsorted : ∀ source ∈ (s.inputTables p).map SsTable.source,
      source.entries.Pairwise fun v w => v.key < w.key :=
    List.forall_mem_map.mpr fun t ht => (hinputs t ht).1
  obtain ⟨merged, hmerge, -⟩ := Merge.exists_full hsorted
  have hcases := @writeMerged_cases s.snapshot p config.targetBytes (s.inputTables p)
    (fun t ht => (hinputs t ht).1) (fun t ht => (hinputs t ht).2) merged hmerge
  -- there is one merge of the inputs, so what fits does not depend on which is looked at
  by_cases hfits : ∀ c ∈ Compaction.cut config.targetBytes none
      (merged.filter (kept s.snapshot p.outputLevel)), Fits c
  · right
    refine ⟨fun q merged' hq hmerge' => ?_, ?_⟩
    · obtain rfl := Option.some.inj (hplan.symm.trans hq)
      rwa [isMerge_unique hsorted hmerge' hmerge]
    rcases hcases s.nextNumber with ⟨outputs, next, hwrite, hrest⟩ | ⟨-, -, -, c, hc, hnot⟩
    · refine ⟨merged, outputs, next, hmerge, hrest.1, hrest.2.1, hrest.2.2, ?_⟩
      rw [Store.compactOnce, hplan]
      dsimp only
      rw [if_neg (not_not.mpr hlength), hwrite]
    · exact absurd (hfits c hc) hnot
  · left
    refine ⟨fun h => hfits (h p merged hplan hmerge), fun next => ?_⟩
    rcases hcases next with ⟨outputs, next', -, hstored, -, -⟩ | ⟨len, last, hwrite, -⟩
    · refine absurd (fun c hc => ?_) hfits
      obtain ⟨t, -, ht⟩ := exists_of_mem_forall₂ hstored.flip hc
      exact ht.fits
    · refine ⟨len, last, ?_⟩
      have hsame : Store.inputTables { s with nextNumber := next } p = s.inputTables p := rfl
      rw [Store.compactOnce, hplan]
      dsimp only
      rw [hsame, if_neg (not_not.mpr hlength), hwrite]

/-! ### What a round leaves -/

section commit

variable {p : Plan} {outputs : List Table} {next : ℕ}

theorem find_commit_of_find {number : ℕ} (hnumber : number ∉ p.inputNumbers) {t : SsTable}
    (h : s.find number = some t) : (s.commit p outputs next).find number = some t := by
  obtain ⟨table, hfind, rfl⟩ := Option.map_eq_some_iff.mp h
  have hstays : (s.tables.filter fun t => t.file.number ∉ p.inputNumbers).find?
      (fun t => t.file.number = number) = some table := by
    rw [List.find?_filter, ← hfind]
    congr 1
    funext t
    by_cases ht : t.file.number = number
    · simp [ht, hnumber]
    · simp [ht]
  rw [find, commit, List.find?_append, hstays]
  rfl

theorem find_commit_of_mem (hs : s.Sound) {t : Table} (ht : t ∈ outputs)
    (hnodup : (outputs.map fun t => t.file.number).Nodup) (hfresh : s.nextNumber ≤ t.file.number) :
    (s.commit p outputs next).find t.file.number = some t.table := by
  have hold : (s.tables.filter fun t => t.file.number ∉ p.inputNumbers).find?
      (fun u => u.file.number = t.file.number) = none := by
    rw [List.find?_eq_none]
    intro u hu
    have := hs.tables u (List.mem_of_mem_filter hu)
    rw [decide_eq_true_iff]
    omega
  have hnew : outputs.find? (fun u => u.file.number = t.file.number) = some t := by
    cases hfind : outputs.find? fun u => u.file.number = t.file.number with
    | none => exact absurd (List.find?_eq_none.mp hfind t ht) (by simp)
    | some u =>
      have hnumber : u.file.number = t.file.number := by simpa using List.find?_some hfind
      rw [List.inj_on_of_nodup_map hnodup (List.mem_of_find?_eq_some hfind) ht hnumber]
  rw [find, commit, List.find?_append, hold, hnew]
  rfl

/-- A round that succeeds leaves a sound store. -/
theorem Sound.commit (hs : s.Sound) {level : ℕ} {chunks : List (List Entry)}
    (hstored : List.Forall₂ (Stored level) outputs chunks)
    (hchunks : ∀ c ∈ chunks, c ≠ [] ∧ c.Pairwise (fun v w => v.key < w.key)
      ∧ ∀ e ∈ c, e.seq < u64Limit)
    (hle : s.nextNumber ≤ next)
    (hnumbers : outputs.map (fun t => t.file.number)
      = List.range' s.nextNumber (next - s.nextNumber)) :
    (s.commit p outputs next).Sound := by
  have hrange : ∀ t ∈ outputs, s.nextNumber ≤ t.file.number ∧ t.file.number < next := by
    intro t ht
    have hmem : t.file.number ∈ List.range' s.nextNumber (next - s.nextNumber) := by
      rw [← hnumbers]
      exact List.mem_map_of_mem ht
    rw [List.mem_range'_1] at hmem
    omega
  have hnodup : (outputs.map fun t => t.file.number).Nodup := by
    rw [hnumbers]
    exact List.nodup_range'
  constructor
  case numbers =>
    have hadded : (outputs.map Table.file).map FileMeta.number
        = outputs.map fun t => t.file.number := List.map_map
    change ((s.snapshot.files.filter _ ++ outputs.map Table.file).map FileMeta.number).Nodup
    rw [List.map_append, hadded]
    -- the numbers of the outputs start where the numbers in use end
    refine List.Nodup.append (hs.numbers.sublist (List.filter_sublist.map _)) hnodup ?_
    intro number hold hnew
    obtain ⟨file, hfile, rfl⟩ := List.mem_map.mp hold
    obtain ⟨t, ht, heq⟩ := List.mem_map.mp hnew
    have := hs.fresh file (List.mem_of_mem_filter hfile)
    have := hrange t ht
    omega
  case fresh =>
    intro file hfile
    rcases List.mem_append.mp hfile with hfile | hfile
    · exact (hs.fresh file (List.mem_of_mem_filter hfile)).trans_le hle
    · obtain ⟨t, ht, rfl⟩ := List.mem_map.mp hfile
      exact (hrange t ht).2
  case tables =>
    intro t ht
    rcases List.mem_append.mp ht with ht | ht
    · exact (hs.tables t (List.mem_of_mem_filter ht)).trans_le hle
    · exact (hrange t ht).2
  case holds =>
    intro file hfile
    rcases List.mem_append.mp hfile with hfile | hfile
    · obtain ⟨hmem, hnumber⟩ := List.mem_filter.mp hfile
      obtain ⟨t, es, hfind, hrest⟩ := hs.holds file hmem
      exact ⟨t, es, find_commit_of_find (of_decide_eq_true hnumber) hfind, hrest⟩
    · obtain ⟨t, ht, rfl⟩ := List.mem_map.mp hfile
      obtain ⟨es, hes, hst⟩ := exists_of_mem_forall₂ hstored ht
      obtain ⟨hne, hsorted, hseq⟩ := hchunks es hes
      refine ⟨t.table, es, find_commit_of_mem hs ht hnodup (hrange t ht).1,
        hst.yields hseq, hsorted, hne, ?_⟩
      rw [hst.file, hst.table]
      rfl

/-- **The measure goes down**: a round moves entries from its level to the next, where each of them
weighs less. -/
theorem weight_commit (hs : s.Sound) (hd : Compaction.Drains s.snapshot p)
    (hadded : ∀ file ∈ outputs.map Table.file, file.level = p.outputLevel)
    (hentries : ((outputs.map Table.file).map FileMeta.entries).sum
      ≤ (p.inputs.map FileMeta.entries).sum) :
    Compaction.weight (s.commit p outputs next).snapshot.files
      < Compaction.weight s.snapshot.files := by
  have hperm := perm_inputsFor hs.numbers p.level
  rw [← hd.inputs] at hperm
  -- the files that stay, and the inputs
  have hbefore : Compaction.weight s.snapshot.files
      = Compaction.weight (s.snapshot.files.filter fun file => file.number ∉ p.inputNumbers)
        + Compaction.weight p.inputs := by
    rw [Compaction.weight_perm hperm, ← Compaction.weight_append]
    refine Compaction.weight_perm (List.Perm.trans ?_ List.perm_append_comm)
    have hsplit := List.filter_append_perm (fun file => decide (file.number ∈ p.inputNumbers))
      s.snapshot.files
    simp only [← decide_not] at hsplit
    exact hsplit.symm
  have hafter : Compaction.weight (s.commit p outputs next).snapshot.files
      = Compaction.weight (s.snapshot.files.filter fun file => file.number ∉ p.inputNumbers)
        + Compaction.weight (outputs.map Table.file) := Compaction.weight_append _ _
  rw [hbefore, hafter, Nat.add_lt_add_iff_left, Compaction.weight_of_level hadded]
  -- the inputs of the level weigh one more than those of the level below
  set below := (s.snapshot.atLevel (p.level + 1)).filter fun file =>
    file.overlaps (Compaction.rangeOf (Compaction.drained s.snapshot p.level)).1
      (Compaction.rangeOf (Compaction.drained s.snapshot p.level)).2
  have hinputs : p.inputs = Compaction.drained s.snapshot p.level ++ below := hd.inputs
  have hown : ∀ file ∈ Compaction.drained s.snapshot p.level, file.level = p.level :=
    fun file hfile => (Compaction.mem_drained hfile).2
  have hbelow : ∀ file ∈ below, file.level = p.level + 1 := fun file hfile =>
    (Snapshot.mem_atLevel.mp (List.mem_of_mem_filter hfile)).2
  rw [hinputs, List.map_append, List.sum_append] at hentries
  rw [hinputs, Compaction.weight_append, Compaction.weight_of_level hown,
    Compaction.weight_of_level hbelow]
  have hpos : 0 < ((Compaction.drained s.snapshot p.level).map FileMeta.entries).sum := by
    obtain ⟨file, hfile⟩ := List.exists_mem_of_ne_nil _ (mt Compaction.drained_eq_nil.mp hd.atLevel)
    obtain ⟨-, es, -, -, -, hne, hcount⟩ := hs.holds file (Compaction.mem_drained hfile).1
    calc 0 < file.entries := by
          rw [hcount]
          exact List.length_pos_iff.mpr hne
      _ ≤ _ := List.single_le_sum (by simp) _ (List.mem_map_of_mem hfile)
  set drained := ((Compaction.drained s.snapshot p.level).map FileMeta.entries).sum
  set overlapping := (below.map FileMeta.entries).sum
  set added := ((outputs.map Table.file).map FileMeta.entries).sum
  have hdepth : Compaction.deepestDrained + 1 - p.level
      = (Compaction.deepestDrained + 1 - p.outputLevel) + 1 := by
    have := hd.level_le
    unfold Plan.outputLevel
    omega
  rw [hdepth]
  change added * (Compaction.deepestDrained + 1 - p.outputLevel)
    < drained * ((Compaction.deepestDrained + 1 - p.outputLevel) + 1)
      + overlapping * (Compaction.deepestDrained + 1 - p.outputLevel)
  generalize Compaction.deepestDrained + 1 - p.outputLevel = depth
  calc added * depth ≤ (drained + overlapping) * depth := Nat.mul_le_mul_right depth hentries
    _ = drained * depth + overlapping * depth := add_mul drained overlapping depth
    _ < drained * (depth + 1) + overlapping * depth := by
      rw [mul_add, mul_one]
      omega

end commit

theorem level_of_stored {level : ℕ} {outputs : List Table} {chunks : List (List Entry)}
    (h : List.Forall₂ (Stored level) outputs chunks) :
    ∀ file ∈ outputs.map Table.file, file.level = level := by
  intro file hfile
  obtain ⟨t, ht, rfl⟩ := List.mem_map.mp hfile
  obtain ⟨es, -, hstored⟩ := exists_of_mem_forall₂ h ht
  rw [hstored.file]
  rfl

/-- **One round.**  A round with something to do that fits leaves a sound store of less weight. -/
theorem weight_compactOnce (hs : s.Sound) {p : Plan} (hd : Compaction.Drains s.snapshot p)
    (hplan : choose s.snapshot config.l0Trigger config.levelBytes config.fanout = some p)
    (hfits : s.Fitting choose config) :
    (s.compactOnce choose config).2.Sound
      ∧ Compaction.weight (s.compactOnce choose config).2.snapshot.files
        < Compaction.weight s.snapshot.files := by
  rcases hs.compactOnce hd hplan with ⟨hnot, -⟩ | ⟨-, merged, outputs, next, hmerge, hstored, hle,
    hnumbers, hround⟩
  · exact absurd hfits hnot
  rw [hround]
  obtain ⟨-, -, hcount⟩ := hs.inputTables hd
  set es := merged.filter (kept s.snapshot p.outputLevel)
  have hflat : (Compaction.cut config.targetBytes none es).flatten = es :=
    Compaction.flatten_cut config.targetBytes es none
  constructor
  · refine hs.commit hstored (fun c hc => ⟨Compaction.ne_nil_of_mem_cut (by simp) hc, ?_, ?_⟩) hle
      hnumbers
    · have hpairs : es.Pairwise fun v w => v.key < w.key := hmerge.sorted.filter _
      rw [← hflat, List.pairwise_flatten] at hpairs
      exact hpairs.1 c hc
    · intro e he
      have hmem : e ∈ es := by
        rw [← hflat]
        exact List.mem_flatten.mpr ⟨c, hc, he⟩
      exact seq_lt_of_mem hmerge (List.mem_of_mem_filter hmem)
  · -- the merge writes no more entries than it read
    refine weight_commit hs hd (level_of_stored hstored) ?_
    rw [sum_entries_of_stored hstored, hflat, ← hcount]
    exact (List.length_filter_le _ _).trans (length_le_of_isMerge hmerge)

/-! ### All rounds -/

theorem after_succ (choose : Snapshot → ℕ → ℕ → ℕ → Option Plan) (config : Config) (n : ℕ)
    (s : Store) :
    s.after choose config (n + 1) = ((s.after choose config n).compactOnce choose config).2 :=
  Function.iterate_succ_apply' _ n s

theorem compactOnce_of_plan
    (h : choose s.snapshot config.l0Trigger config.levelBytes config.fanout = none) :
    s.compactOnce choose config = (.ok false, s) := by
  rw [Store.compactOnce, h]

/-- A store with nothing to compact stays as it is. -/
theorem after_of_plan {m n : ℕ} (h : choose (s.after choose config m).snapshot config.l0Trigger
    config.levelBytes config.fanout = none) (hle : m ≤ n) :
    s.after choose config n = s.after choose config m := by
  induction n, hle using Nat.le_induction with
  | base => rfl
  | succ n _ ih => rw [after_succ, ih, compactOnce_of_plan h]

/-- A store that does not fit loses file numbers in each round, and no more. -/
theorem Sound.after_of_not_fitting (hs : s.Sound) {p : Plan}
    (hd : Compaction.Drains s.snapshot p)
    (hplan : choose s.snapshot config.l0Trigger config.levelBytes config.fanout = some p)
    (hnot : ¬ s.Fitting choose config) (n : ℕ) :
    ∃ next, s.after choose config n = { s with nextNumber := next } := by
  rcases hs.compactOnce hd hplan with ⟨-, hround⟩ | ⟨hfits, -⟩
  · induction n with
    | zero => exact ⟨s.nextNumber, rfl⟩
    | succ n ih =>
      obtain ⟨next, hnext⟩ := ih
      obtain ⟨len, last, hlast⟩ := hround next
      exact ⟨last, by rw [after_succ, hnext, hlast]⟩
  · exact absurd hfits hnot

section rounds

variable (hs : s.Sound)
  (hd : ∀ n p, choose (s.after choose config n).snapshot config.l0Trigger config.levelBytes
    config.fanout = some p → Compaction.Drains (s.after choose config n).snapshot p)

include hs hd

/-- Fitting rounds leave a sound store. -/
theorem Sound.after {n : ℕ} (hfits : ∀ m < n, (s.after choose config m).Fitting choose config) :
    (s.after choose config n).Sound := by
  induction n with
  | zero => exact hs
  | succ n ih =>
    have hsound := ih fun m hm => hfits m (by omega)
    rw [after_succ]
    cases hplan : choose (s.after choose config n).snapshot config.l0Trigger config.levelBytes
        config.fanout with
    | none =>
      rw [compactOnce_of_plan hplan]
      exact hsound
    | some p => exact (weight_compactOnce hsound (hd n p hplan) hplan (hfits n n.lt_succ_self)).1

/-- As long as rounds with something to do fit, there is a last one. -/
theorem exists_plan_eq_none (hfits : ∀ n, (s.after choose config n).Fitting choose config) :
    ∃ n, choose (s.after choose config n).snapshot config.l0Trigger config.levelBytes
      config.fanout = none := by
  by_contra hnever
  have hround : ∀ n, Compaction.weight (s.after choose config (n + 1)).snapshot.files
      < Compaction.weight (s.after choose config n).snapshot.files := by
    intro n
    obtain ⟨p, hplan⟩ := Option.ne_none_iff_exists'.mp fun h => hnever ⟨n, h⟩
    rw [after_succ]
    exact (weight_compactOnce (hs.after hd fun m _ => hfits m) (hd n p hplan) hplan (hfits n)).2
  -- a measure cannot go down for ever
  obtain ⟨n, hn⟩ := WellFounded.not_rel_apply_succ (r := (· < ·)) fun n =>
    Compaction.weight (s.after choose config n).snapshot.files
  exact hn (hround n)

/-- **Compaction settles exactly when each round is fitting**, however a round is planned. -/
theorem settles_iff :
    (∃ n, choose (s.after choose config n).snapshot config.l0Trigger config.levelBytes
        config.fanout = none)
      ↔ ∀ n, (s.after choose config n).Fitting choose config := by
  refine ⟨?_, exists_plan_eq_none hs hd⟩
  rintro ⟨m, hm⟩
  -- the first store that does not fit keeps its files for ever
  by_contra hnot
  rw [not_forall] at hnot
  classical
  set n := Nat.find hnot
  have hfirst : ∀ k < n, (s.after choose config k).Fitting choose config := fun k hk =>
    not_not.mp (Nat.find_min hnot hk)
  cases hplan : choose (s.after choose config n).snapshot config.l0Trigger config.levelBytes
      config.fanout with
  | none =>
    refine Nat.find_spec hnot fun p merged hp => ?_
    cases hplan.symm.trans hp
  | some p =>
    rcases le_total m n with hle | hle
    · -- the store was settled before, and stays so
      rw [after_of_plan hm hle, hm] at hplan
      cases hplan
    · obtain ⟨k, rfl⟩ := Nat.exists_eq_add_of_le' hle
      obtain ⟨next, hnext⟩ := (hs.after hd hfirst).after_of_not_fitting (hd n p hplan) hplan
        (Nat.find_spec hnot) k
      have hadd : s.after choose config (k + n) = (s.after choose config n).after choose config k :=
        Function.iterate_add_apply _ k n s
      rw [hadd, hnext, hplan] at hm
      cases hm

end rounds

/-- **With the scores of the code**, which round and may wrap around, compaction settles exactly
when each round is fitting. -/
theorem settles_plan_iff (hbytes : 1 ≤ config.memtableBytes) (hfanout : 2 ≤ config.fanout)
    (hs : s.Sound) :
    (∃ n, Compaction.plan (s.after Compaction.plan config n).snapshot config.l0Trigger
        config.levelBytes config.fanout = none)
      ↔ ∀ n, (s.after Compaction.plan config n).Fitting Compaction.plan config :=
  settles_iff hs fun _ _ h => Compaction.drains_plan h (one_le_levelBytes hbytes hfanout) hfanout

/-! ### Two files of level 0 -/

section

variable {value : Bytes} (hvalue : value.length ≤ u32Limit - 23)

include hvalue

end

end Store

end Sst

end Lsmkv
