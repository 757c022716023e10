import Lsmkv.Engine.Files

/-!
# Opening a store (`Engine::open`)

`OpenedFrom dir dir' e` is what an open that succeeds guarantees: the engine holds the snapshot
the manifest names, arranged, its active memtable holds what the logs on disk hold, and it goes on
from the highest sequence number in use.  `openPlan_spec` says that a sound directory with readable
logs opens unless tables are there without a manifest, and `openKilled_kept` what a process killed
in the middle of an open leaves behind.
-/

namespace Lsmkv

open State

/-! ### Operations on the directory -/

namespace Dir

variable {dir : Dir} {ops : List FsOp}

theorem applyAll_append (dir : Dir) (ops ops' : List FsOp) :
    dir.applyAll (ops ++ ops') = (dir.applyAll ops).applyAll ops' := List.foldl_append

theorem mem_tables_applyAll {n : ℕ} (h : n ∈ (dir.applyAll ops).tables) :
    n ∈ dir.tables ∧ .removeTable n ∉ ops := by
  induction ops generalizing dir with
  | nil => exact ⟨h, List.not_mem_nil⟩
  | cons op ops ih =>
    rw [applyAll, List.foldl_cons, ← applyAll] at h
    obtain ⟨hmem, hrest⟩ := ih h
    cases op with
    | removeTable m =>
      obtain ⟨hne, hmem⟩ := AList.mem_erase.mp hmem
      refine ⟨hmem, fun hin => ?_⟩
      rcases List.mem_cons.mp hin with heq | hin
      · exact hne (FsOp.removeTable.inj heq)
      · exact hrest hin
    | _ => exact ⟨hmem, fun hin => by rcases List.mem_cons.mp hin with heq | hin
                                      · cases heq
                                      · exact hrest hin⟩

/-- A log that is not rewritten stays. -/
theorem logs_applyAll {n : ℕ} (h : ∀ content, .setLog n content ∉ ops) :
    (dir.applyAll ops).logs.lookup n = dir.logs.lookup n := by
  induction ops generalizing dir with
  | nil => rfl
  | cons op ops ih =>
    rw [applyAll, List.foldl_cons, ← applyAll,
      ih fun content hin => h content (List.mem_cons_of_mem _ hin)]
    cases op with
    | setLog m content =>
      exact AList.lookup_insert_ne fun heq => h content (heq ▸ List.mem_cons_self)
    | _ => rfl

/-- Rewriting a log several times leaves the last content. -/
theorem logs_applyAll_setLog (dir : Dir) (number : ℕ) (contents : List Bytes) :
    (dir.applyAll (contents.map (.setLog number))).logs.lookup number
      = contents.getLast?.or (dir.logs.lookup number) := by
  induction contents using List.reverseRecOn with
  | nil => rfl
  | append_singleton contents content _ =>
    rw [List.map_append, applyAll_append, List.getLast?_append]
    exact AList.lookup_insert _

theorem tables_applyAll_setLog (dir : Dir) (number : ℕ) (contents : List Bytes) :
    (dir.applyAll (contents.map (.setLog number))).tables = dir.tables := by
  induction contents generalizing dir with
  | nil => rfl
  | cons content contents ih => exact ih _

end Dir

/-- The records the logs hold, in the order they are replayed. -/
def Dir.records (dir : Dir) (numbers : List ℕ) : List Entry :=
  numbers.flatMap fun n => Wal.contents ((dir.logs.lookup n).getD [])

/-- Every log can be replayed. -/
def Dir.LogsReadable (dir : Dir) : Prop :=
  ∀ n bytes, dir.logs.lookup n = some bytes → Wal.Readable bytes

theorem Dir.LogsReadable.getD {dir : Dir} (h : dir.LogsReadable) (n : ℕ) :
    Wal.Readable ((dir.logs.lookup n).getD []) := by
  cases hlookup : dir.logs.lookup n with
  | none => exact Or.inl (by decide)
  | some bytes => exact h n bytes hlookup

theorem mem_cleanup {dir : Dir} {snapshot : Snapshot} {op : FsOp}
    (h : op ∈ Engine.cleanup dir snapshot) : (∃ n, op = .removePartial n) ∨ op = .removeManifestTemp
      ∨ ∃ n, op = .removeTable n ∧ ∀ f ∈ snapshot.files, f.number ≠ n := by
  rcases List.mem_append.mp h with h | h
  · rcases List.mem_append.mp h with h | h
    · obtain ⟨n, -, rfl⟩ := List.mem_map.mp h
      exact Or.inl ⟨n, rfl⟩
    · split_ifs at h
      · exact Or.inr (Or.inl (List.mem_singleton.mp h))
      · cases h
  · obtain ⟨n, hn, rfl⟩ := List.mem_map.mp h
    have := (List.mem_filter.mp hn).2
    exact Or.inr (Or.inr ⟨n, rfl, by simpa using this⟩)

/-! ### Replaying the logs -/

/-- `m` is the highest of `base` and the numbers of the records. -/
def IsLast (base : ℕ) (records : List Entry) (m : ℕ) : Prop :=
  base ≤ m ∧ (∀ e ∈ records, e.seq ≤ m) ∧ (m = base ∨ ∃ e ∈ records, e.seq = m)

theorem isLast_foldl (base : ℕ) (records : List Entry) :
    IsLast base records (records.foldl (fun last e => max last e.seq) base) := by
  induction records using List.reverseRecOn with
  | nil => exact ⟨le_rfl, by simp, Or.inl rfl⟩
  | append_singleton records e ih =>
    obtain ⟨hbase, hall, hattained⟩ := ih
    rw [List.foldl_append, List.foldl_cons, List.foldl_nil]
    set m := records.foldl (fun last e => max last e.seq) base
    refine ⟨hbase.trans (le_max_left _ _), fun f hf => ?_, ?_⟩
    · rcases List.mem_append.mp hf with hf | hf
      · exact (hall f hf).trans (le_max_left _ _)
      · rw [List.mem_singleton.mp hf]
        exact le_max_right _ _
    · rcases le_total m e.seq with hle | hle
      · exact Or.inr ⟨e, by simp, (max_eq_right hle).symm⟩
      · rw [max_eq_left hle]
        exact hattained.imp_right fun ⟨f, hf, heq⟩ => ⟨f, List.mem_append_left _ hf, heq⟩

theorem IsLast.append {base m m' : ℕ} {records records' : List Entry} (h : IsLast base records m)
    (h' : IsLast m records' m') : IsLast base (records ++ records') m' := by
  obtain ⟨hbase, hall, hattained⟩ := h
  obtain ⟨hm, hall', hattained'⟩ := h'
  refine ⟨hbase.trans hm, fun e he => ?_, ?_⟩
  · rcases List.mem_append.mp he with he | he
    · exact (hall e he).trans hm
    · exact hall' e he
  · rcases hattained' with rfl | ⟨e, he, heq⟩
    · exact hattained.imp_right fun ⟨e, he, heq⟩ => ⟨e, List.mem_append_left _ he, heq⟩
    · exact Or.inr ⟨e, List.mem_append_right _ he, heq⟩

namespace Engine

variable {dir : Dir}

theorem replayLogs_eq (hlogs : dir.LogsReadable) : ∀ (numbers : List ℕ) (active : Memtable)
    (lastSeq : ℕ), (∀ n ∈ numbers, n ∈ dir.logs) →
      replayLogs dir numbers active lastSeq
        = .ok ((dir.records numbers).foldl (fun m e => (m.insert e).1) active,
          (dir.records numbers).foldl (fun last e => max last e.seq) lastSeq)
  | [], active, lastSeq, _ => rfl
  | n :: numbers, active, lastSeq, hmem => by
    obtain ⟨bytes, hbytes⟩ := Option.isSome_iff_exists.mp
      (AList.lookup_isSome.mpr (hmem n List.mem_cons_self))
    obtain ⟨replay, hopen, hrecords⟩ := Wal.openFile_records n (hlogs n bytes hbytes)
    have hcons : dir.records (n :: numbers) = Wal.contents bytes ++ dir.records numbers := by
      rw [Dir.records, List.flatMap_cons, hbytes]
      rfl
    simp only [replayLogs, hbytes, hopen, bind, Except.bind, hrecords]
    rw [replayLogs_eq hlogs numbers _ _ fun m hm => hmem m (List.mem_cons_of_mem _ hm), hcons,
      List.foldl_append, List.foldl_append]

/-- What the replay of the logs gives. -/
structure Replayed (dir : Dir) (config : Config) (snapshot : Snapshot) (levels : List (List Table))
    (nextNumber : ℕ) (older : List ℕ) (number next : ℕ) (r : Wal.Recovered) : Prop where
  result : openLogs dir config snapshot levels nextNumber
    = ((Wal.recoverSteps number (dir.logs.lookup number)).map (.setLog number),
      .ok (opened config number r (Memtable.ofRecords (dir.records (older ++ [number])))
        (older ++ [number]) snapshot levels next))
  number_lt : number < next
  next_le : nextNumber ≤ next
  number_new : number ∈ dir.logs ∨ (∀ n, n ∉ dir.logs) ∧ number = nextNumber
  sorted : (older ++ [number]).Pairwise (· < ·)
  older_mem : ∀ n ∈ older, n ∈ dir.logs
  all_mem : ∀ n ∈ dir.logs, n ∈ older ++ [number]
  recover : ∃ lastSeq, Wal.recover number (dir.logs.lookup number) lastSeq = .ok r
  last : IsLast snapshot.lastSeq (dir.records (older ++ [number])) r.lastSeq

/-- Readable logs are replayed into the active table. -/
theorem openLogs_spec (hlogs : dir.LogsReadable) (config : Config) (snapshot : Snapshot)
    (levels : List (List Table)) {nextNumber : ℕ} (hnext : ∀ n ∈ dir.logs, n < nextNumber) :
    ∃ older number next r, Replayed dir config snapshot levels nextNumber older number next r := by
  have hsorted := scan_logs_sorted dir
  cases hlast : (Listing.scan dir).logs.getLast? with
  | none =>
    -- the first log of a new directory
    have hempty : (Listing.scan dir).logs = [] := List.getLast?_eq_none_iff.mp hlast
    have hnone : ∀ n, n ∉ dir.logs := fun n hn => by
      have := mem_scan_logs.mpr hn
      rw [hempty] at this
      cases this
    obtain ⟨r, hr, hrecords, -, -, hle, hall, hattained⟩ :=
      Wal.recover_spec nextNumber snapshot.lastSeq (hlogs.getD nextNumber)
    have hlookup : dir.logs.lookup nextNumber = none :=
      AList.lookup_eq_none.mpr (hnone nextNumber)
    have hrecords' : dir.records ([] ++ [nextNumber]) = r.records := by
      rw [hrecords]
      simp [Dir.records]
    have hempty' : r.records = [] := by
      rw [hrecords, hlookup]
      rfl
    refine ⟨[], nextNumber, nextNumber + 1, r, ?_, Nat.lt_succ_self _, Nat.le_succ _,
      Or.inr ⟨hnone, rfl⟩, List.pairwise_singleton _ _, by simp, fun n hn =>
        absurd hn (hnone n), ⟨_, hr⟩, ?_⟩
    · rw [openLogs, hlast, hr, hrecords', hempty']
      rfl
    · rw [hrecords']
      exact ⟨hle, hall, hattained⟩
  | some newest =>
    have hsplit : (Listing.scan dir).logs = (Listing.scan dir).logs.dropLast ++ [newest] := by
      have := List.dropLast_append_getLast? newest hlast
      exact this.symm
    set older := (Listing.scan dir).logs.dropLast with holder
    have hmem : ∀ n, n ∈ older ++ [newest] ↔ n ∈ dir.logs := fun n => by
      rw [← hsplit, mem_scan_logs]
    have holder_mem : ∀ n ∈ older, n ∈ dir.logs :=
      fun n hn => (hmem n).mp (List.mem_append_left _ hn)
    -- the older logs are only read, and raise the sequence the newest one is recovered with
    set lastSeq := (dir.records older).foldl (fun last e => max last e.seq) snapshot.lastSeq
      with hlastSeq
    obtain ⟨r, hr, hrecords, -, -, hle, hall, hattained⟩ :=
      Wal.recover_spec newest lastSeq (hlogs.getD newest)
    have hrecords' : dir.records (older ++ [newest]) = dir.records older ++ r.records := by
      rw [hrecords]
      simp [Dir.records]
    have hnewest : newest ∈ dir.logs := (hmem newest).mp (by simp)
    refine ⟨older, newest, nextNumber, r, ?_, hnext newest hnewest, le_rfl, Or.inl hnewest,
      hsplit ▸ hsorted, holder_mem, fun n hn => (hmem n).mpr hn, ⟨_, hr⟩, ?_⟩
    · rw [openLogs, hlast]
      dsimp only
      rw [← holder, replayLogs_eq hlogs older _ _ holder_mem]
      dsimp only
      rw [← hlastSeq, hr, hrecords', Memtable.ofRecords, List.foldl_append]
    · rw [hrecords']
      exact (isLast_foldl _ _).append ⟨hle, hall, hattained⟩

end Engine

/-! ### The records in the directory -/

/-- The records of every log, in the order they are replayed. -/
def Dir.allRecords (dir : Dir) : List Entry := dir.records (Listing.scan dir).logs

/-- Numbers without a log make no difference to what is replayed. -/
theorem Dir.records_eq_allRecords {dir : Dir} {numbers : List ℕ}
    (hsorted : numbers.Pairwise (· < ·)) (hmem : ∀ n ∈ dir.logs, n ∈ numbers) :
    dir.records numbers = dir.allRecords := by
  have hfilter : dir.records numbers = dir.records (numbers.filter fun n => n ∈ dir.logs) := by
    clear hsorted hmem
    induction numbers with
    | nil => rfl
    | cons n numbers ih =>
      rw [Dir.records, List.flatMap_cons, ← Dir.records, ih]
      by_cases hn : n ∈ dir.logs
      · rw [List.filter_cons_of_pos (by simpa using hn)]
        rfl
      · rw [List.filter_cons_of_neg (by simpa using hn), AList.lookup_eq_none.mpr hn]
        rfl
  rw [hfilter, Dir.allRecords, scan_logs_eq (hsorted.filter _)]
  intro n
  rw [List.mem_filter, decide_eq_true_iff]
  exact ⟨fun h => h.2, fun h => ⟨hmem n h, h⟩⟩

/-- What an operation of `Engine::open` may do to a directory: nothing to the files the manifest
names, and nothing to what the logs hold.  A new log appears only where there is none. -/
def FsOp.Benign (dir : Dir) (snapshot : Snapshot) : FsOp → Prop
  | .removePartial _ | .removeManifestTemp => True
  | .removeTable n => ∀ f ∈ snapshot.files, f.number ≠ n
  | .setLog n bytes => Wal.Readable bytes
    ∧ Wal.contents bytes = Wal.contents ((dir.logs.lookup n).getD [])
    ∧ (n ∈ dir.logs ∨ (∀ m, m ∉ dir.logs) ∧ snapshot.nextNumber ≤ n)

/-- The directory after some operations of `Engine::open`. -/
structure Dir.Kept (dir : Dir) (snapshot : Snapshot) (dir' : Dir) : Prop where
  manifest : dir'.manifest = dir.manifest
  tables : ∀ f ∈ snapshot.files, dir'.tables.lookup f.number = dir.tables.lookup f.number
  tables_mem : ∀ n ∈ dir'.tables, n ∈ dir.tables
  logs_mem : ∀ n ∈ dir.logs, n ∈ dir'.logs
  logs_new : ∀ n ∈ dir'.logs, n ∈ dir.logs ∨ (∀ m, m ∉ dir.logs) ∧ snapshot.nextNumber ≤ n
  readable : dir'.LogsReadable
  contents : ∀ n, Wal.contents ((dir'.logs.lookup n).getD [])
    = Wal.contents ((dir.logs.lookup n).getD [])

theorem Dir.Kept.refl {dir : Dir} (snapshot : Snapshot) (hlogs : dir.LogsReadable) :
    dir.Kept snapshot dir :=
  ⟨rfl, fun _ _ => rfl, fun _ => id, fun _ => id, fun _ => Or.inl, hlogs, fun _ => rfl⟩

theorem Dir.Kept.apply {dir dir' : Dir} {snapshot : Snapshot} (h : dir.Kept snapshot dir')
    {op : FsOp} (hop : op.Benign dir snapshot) : dir.Kept snapshot (dir'.apply op) := by
  cases op with
  | removePartial n => exact { h with }
  | removeManifestTemp => exact { h with }
  | removeTable n =>
    refine { h with tables := fun f hf => ?_, tables_mem := fun m hm => ?_ }
    · exact (AList.lookup_erase_ne (hop f hf)).trans (h.tables f hf)
    · exact h.tables_mem m (AList.mem_erase.mp hm).2
  | setLog n bytes =>
    refine { h with
      logs_mem := fun m hm => AList.mem_insert _ |>.mpr (Or.inr (h.logs_mem m hm))
      logs_new := fun m hm => ?_
      readable := fun m content hm => ?_
      contents := fun m => ?_ }
    · rcases (AList.mem_insert _).mp hm with rfl | hm
      · exact hop.2.2
      · exact h.logs_new m hm
    · change (dir'.logs.insert n bytes).lookup m = some content at hm
      by_cases hmn : m = n
      · subst hmn
        rw [AList.lookup_insert] at hm
        exact Option.some.inj hm ▸ hop.1
      · rw [AList.lookup_insert_ne hmn] at hm
        exact h.readable m content hm
    · change Wal.contents (((dir'.logs.insert n bytes).lookup m).getD []) = _
      by_cases hmn : m = n
      · subst hmn
        rw [AList.lookup_insert]
        exact hop.2.1
      · rw [AList.lookup_insert_ne hmn]
        exact h.contents m

theorem Dir.Kept.applyAll {dir dir' : Dir} {snapshot : Snapshot} (h : dir.Kept snapshot dir')
    {ops : List FsOp} (hops : ∀ op ∈ ops, op.Benign dir snapshot) :
    dir.Kept snapshot (dir'.applyAll ops) := by
  induction ops generalizing dir' with
  | nil => exact h
  | cons op ops ih =>
    exact ih (h.apply (hops op List.mem_cons_self)) fun op' hop' =>
      hops op' (List.mem_cons_of_mem _ hop')

theorem Dir.Kept.records {dir dir' : Dir} {snapshot : Snapshot} (h : dir.Kept snapshot dir')
    (numbers : List ℕ) : dir'.records numbers = dir.records numbers :=
  List.flatMap_congr fun n _ => h.contents n

theorem Dir.Kept.allRecords {dir dir' : Dir} {snapshot : Snapshot} (h : dir.Kept snapshot dir') :
    dir'.allRecords = dir.allRecords := by
  rw [Dir.allRecords, h.records, Dir.records_eq_allRecords (scan_logs_sorted dir')]
  exact fun n hn => mem_scan_logs.mpr (h.logs_mem n hn)

theorem Dir.Kept.loads {dir dir' : Dir} {snapshot : Snapshot} (h : dir.Kept snapshot dir')
    {s : Snapshot} : dir'.Loads s ↔ dir.Loads s := Dir.Loads.congr h.manifest

theorem Dir.Kept.sound {dir dir' : Dir} {snapshot : Snapshot} (h : dir.Kept snapshot dir')
    (hl : dir.Loads snapshot) (hs : dir.Sound) : dir'.Sound := by
  obtain ⟨snapshot', hl', levels, harr⟩ := hs
  obtain rfl := hl.unique hl'
  exact ⟨snapshot, h.loads.mpr hl, levels, harr.congr_dir h.tables⟩

theorem benign_cleanup {dir : Dir} {snapshot : Snapshot} {op : FsOp}
    (h : op ∈ Engine.cleanup dir snapshot) (dir' : Dir) : op.Benign dir' snapshot := by
  rcases mem_cleanup h with ⟨n, rfl⟩ | rfl | ⟨n, rfl, hn⟩
  · trivial
  · trivial
  · exact hn

/-! ### `Engine::open` -/

/-- What an open that succeeds guarantees. -/
structure OpenedFrom (dir : Dir) (config : Config) (dir' : Dir) (e : Engine) : Prop where
  loads : dir.Loads e.snapshot
  kept : dir.Kept e.snapshot dir'
  arranged : Arranged dir' e.state.levels e.snapshot.files
  /-- Only the tables the manifest names are left. -/
  named : ∀ n ∈ dir'.tables, ∃ f ∈ e.snapshot.files, f.number = n
  tables_lt : ∀ n ∈ dir'.tables, n < e.nextNumber
  logs_lt : ∀ n ∈ e.state.activeLogs, n < e.nextNumber
  next_le : e.snapshot.nextNumber ≤ e.nextNumber
  fresh : ∃ r, e = Engine.opened config e.walNumber r e.state.active e.state.activeLogs e.snapshot
      e.state.levels e.nextNumber
    ∧ (∃ lastSeq, Wal.recover e.walNumber (dir.logs.lookup e.walNumber) lastSeq = .ok r)
    ∧ dir'.logs.lookup e.walNumber = some r.file
    ∧ IsLast e.snapshot.lastSeq dir.allRecords r.lastSeq
  active : e.state.active = Memtable.ofRecords dir.allRecords
  activeLogs : ∃ older, e.state.activeLogs = older ++ [e.walNumber]
  sorted : e.state.activeLogs.Pairwise (· < ·)
  logs_mem : ∀ n, n ∈ dir'.logs ↔ n ∈ e.state.activeLogs

theorem loadManifest_of_loads {dir : Dir} {snapshot : Snapshot} (hl : dir.Loads snapshot)
    (h : dir.manifest ≠ none ∨ ∀ n, n ∉ dir.tables) : loadManifest dir = .ok snapshot := by
  unfold loadManifest
  rcases hl with hl | ⟨hl, rfl⟩
  · rw [hl]
  · rw [hl]
    have hnone := h.resolve_left fun hne => hne hl
    have hempty : (Listing.scan dir).tables = [] := by
      rw [List.eq_nil_iff_forall_not_mem]
      exact fun n hn => hnone n (mem_scan_tables.mp hn)
    dsimp only
    rw [if_pos hempty]

/-- **Opening succeeds** on a sound directory with readable logs, unless there are tables and no
manifest. -/
theorem openPlan_spec {dir : Dir} (hs : dir.Sound) (hlogs : dir.LogsReadable) (config : Config)
    (h : dir.manifest ≠ none ∨ ∀ n, n ∉ dir.tables) : ∃ ops e,
      Engine.openPlan dir config = (ops, .ok e) ∧ OpenedFrom dir config (dir.applyAll ops) e
        ∧ ∀ op ∈ ops, op.Benign dir e.snapshot := by
  obtain ⟨snapshot, hl, levels₀, harr₀⟩ := hs
  -- the cleanup removes what the manifest does not name, and leaves the logs alone
  set dir₁ := dir.applyAll (Engine.cleanup dir snapshot) with hdir₁
  have hclean : ∀ op ∈ Engine.cleanup dir snapshot, op.Benign dir snapshot :=
    fun op hop => benign_cleanup hop dir
  have hkept₁ : dir.Kept snapshot dir₁ := (Dir.Kept.refl snapshot hlogs).applyAll hclean
  have hsame : ∀ n, dir₁.logs.lookup n = dir.logs.lookup n := fun n =>
    Dir.logs_applyAll fun content hop => by
      rcases mem_cleanup hop with ⟨_, h⟩ | h | ⟨_, h, -⟩ <;> cases h
  have hlogs_iff : ∀ n, n ∈ dir₁.logs ↔ n ∈ dir.logs := fun n => by
    rw [← AList.lookup_isSome, hsame, AList.lookup_isSome]
  obtain ⟨levels, hlevels, harr⟩ := (harr₀.congr_dir hkept₁.tables).openLevels
  set nextNumber := max (Listing.scan dir).nextNumber snapshot.nextNumber with hnextNumber
  have hbelow : ∀ n, n ∈ dir.logs ∨ n ∈ dir.tables → n < nextNumber := fun n hn =>
    (lt_scan_nextNumber hn).trans_le (le_max_left _ _)
  -- every log is replayed, and the newest one is recovered to go on as the current log
  obtain ⟨older, number, next, r, hr⟩ := Engine.openLogs_spec hkept₁.readable config snapshot levels
    fun n hn => hbelow n (Or.inl ((hlogs_iff n).mp hn))
  set logOps : List FsOp :=
    (Wal.recoverSteps number (dir₁.logs.lookup number)).map (.setLog number) with hlogOps
  set e := Engine.opened config number r (Memtable.ofRecords (dir₁.records (older ++ [number])))
    (older ++ [number]) snapshot levels next with he
  have hplan : Engine.openPlan dir config = (Engine.cleanup dir snapshot ++ logOps, .ok e) := by
    unfold Engine.openPlan
    dsimp only
    rw [loadManifest_of_loads hl h]
    dsimp only
    rw [← hdir₁, hlevels]
    dsimp only
    rw [← hnextNumber, hr.result]
  have hrecords : dir₁.records (older ++ [number]) = dir.allRecords := by
    rw [hkept₁.records]
    exact Dir.records_eq_allRecords hr.sorted fun n hn => hr.all_mem n ((hlogs_iff n).mpr hn)
  -- wherever the recovery of that log is interrupted, its file holds the same records
  have hsteps := Wal.recoverSteps_spec number (hkept₁.readable.getD number)
  have hlogBenign : ∀ op ∈ logOps, op.Benign dir snapshot := by
    intro op hop
    obtain ⟨bytes, hbytes, rfl⟩ := List.mem_map.mp hop
    obtain ⟨hreadable, hcontents⟩ := hsteps.1 bytes hbytes
    refine ⟨hreadable, by rw [hcontents, hsame], hr.number_new.imp (hlogs_iff number).mp ?_⟩
    rintro ⟨hnone, rfl⟩
    exact ⟨fun n hn => hnone n ((hlogs_iff n).mpr hn), le_max_right _ _⟩
  have hbenign : ∀ op ∈ Engine.cleanup dir snapshot ++ logOps, op.Benign dir snapshot := by
    intro op hop
    rcases List.mem_append.mp hop with hop | hop
    · exact hclean op hop
    · exact hlogBenign op hop
  have hkept : dir.Kept snapshot (dir.applyAll (Engine.cleanup dir snapshot ++ logOps)) :=
    (Dir.Kept.refl snapshot hlogs).applyAll hbenign
  obtain ⟨lastSeq, hrecover⟩ := hr.recover
  have hfinal : (dir.applyAll (Engine.cleanup dir snapshot ++ logOps)).logs.lookup number
      = some r.file := by
    rw [Dir.applyAll_append, ← hdir₁, hlogOps, Dir.logs_applyAll_setLog]
    rcases hsteps.2 hrecover with hlast | ⟨hnil, hfile⟩
    · rw [hlast, Option.some_or]
    · rw [hnil, List.getLast?_nil, Option.none_or, hfile]
  have hother : ∀ n, n ≠ number →
      (dir.applyAll (Engine.cleanup dir snapshot ++ logOps)).logs.lookup n = dir.logs.lookup n := by
    intro n hn
    rw [Dir.applyAll_append, ← hdir₁, Dir.logs_applyAll, hsame]
    intro content hop
    obtain ⟨bytes, -, heq⟩ := List.mem_map.mp hop
    exact hn (FsOp.setLog.inj heq).1.symm
  refine ⟨_, e, hplan, ?_, hbenign⟩
  refine ⟨hl, hkept, ?_, ?_, ?_, ?_, (le_max_right _ _).trans hr.next_le,
    ⟨r, rfl, ⟨lastSeq, ?_⟩, hfinal, ?_⟩, ?_, ⟨older, rfl⟩, hr.sorted, ?_⟩
  · exact harr.congr_dir fun f hf => (hkept.tables f hf).trans (hkept₁.tables f hf).symm
  · intro n hn
    rw [Dir.applyAll_append, hlogOps, Dir.tables_applyAll_setLog] at hn
    obtain ⟨hmem, hop⟩ := Dir.mem_tables_applyAll hn
    -- a table the manifest does not name is among those the cleanup removes
    by_contra hnone
    change ¬ ∃ f ∈ snapshot.files, f.number = n at hnone
    refine hop (List.mem_append_right _ (List.mem_map_of_mem (List.mem_filter.mpr
      ⟨mem_scan_tables.mpr hmem, ?_⟩)))
    simpa using fun f hf heq => hnone ⟨f, hf, heq⟩
  · exact fun n hn => (hbelow n (Or.inr (hkept.tables_mem n hn))).trans_le hr.next_le
  · intro n hn
    rcases List.mem_append.mp hn with hn | hn
    · exact (hbelow n (Or.inl ((hlogs_iff n).mp (hr.older_mem n hn)))).trans_le hr.next_le
    · rw [List.mem_singleton.mp hn]
      exact hr.number_lt
  · rw [← hsame]
    exact hrecover
  · rw [← hrecords]
    exact hr.last
  · rw [he, ← hrecords]
    rfl
  · intro n
    by_cases hn : n = number
    · subst hn
      rw [← AList.lookup_isSome, hfinal]
      simp [he, Engine.opened]
    · rw [← AList.lookup_isSome, hother n hn, AList.lookup_isSome]
      constructor
      · exact fun hmem => hr.all_mem n ((hlogs_iff n).mpr hmem)
      · intro hmem
        rcases List.mem_append.mp hmem with hmem | hmem
        · exact (hlogs_iff n).mp (hr.older_mem n hmem)
        · exact absurd (List.mem_singleton.mp hmem) hn

/-- Tables without a manifest are refused. -/
theorem openPlan_refused {dir : Dir} (config : Config) (hmanifest : dir.manifest = none) {n : ℕ}
    (hn : n ∈ dir.tables) : Engine.openPlan dir config = ((Listing.scan dir).leftovers,
      .error (.corrupt .dir "tables are present but the manifest naming them is gone")) := by
  have hne : (Listing.scan dir).tables ≠ [] := fun hnil => by
    have := mem_scan_tables.mpr hn
    rw [hnil] at this
    cases this
  unfold Engine.openPlan loadManifest
  rw [hmanifest]
  dsimp only
  rw [if_neg hne]

/-- An open that succeeds found a manifest or no tables. -/
theorem manifest_of_openPlan {dir : Dir} {config : Config} {ops : List FsOp} {e : Engine}
    (h : Engine.openPlan dir config = (ops, .ok e)) :
    dir.manifest ≠ none ∨ ∀ n, n ∉ dir.tables := by
  by_contra hnot
  rw [not_or, not_not] at hnot
  obtain ⟨hmanifest, htables⟩ := hnot
  rw [not_forall_not] at htables
  obtain ⟨n, hn⟩ := htables
  rw [openPlan_refused config hmanifest hn] at h
  cases h

theorem openedFrom {dir : Dir} (hs : dir.Sound) (hlogs : dir.LogsReadable) {config : Config}
    {ops : List FsOp} {e : Engine} (h : Engine.openPlan dir config = (ops, .ok e)) :
    OpenedFrom dir config (dir.applyAll ops) e := by
  obtain ⟨ops', e', hplan, hopened, -⟩ :=
    openPlan_spec hs hlogs config (manifest_of_openPlan h)
  rw [h] at hplan
  obtain ⟨rfl, heq⟩ := Prod.mk.inj hplan
  obtain rfl := Except.ok.inj heq
  exact hopened

/-- **A process killed while it opens a store** leaves what the manifest names and what the logs
hold as they were. -/
theorem openKilled_kept {dir : Dir} (hs : dir.Sound) (hlogs : dir.LogsReadable) (config : Config)
    (count : ℕ) : ∃ snapshot, dir.Loads snapshot
      ∧ dir.Kept snapshot (dir.applyAll ((Engine.openPlan dir config).1.take count)) := by
  by_cases h : dir.manifest ≠ none ∨ ∀ n, n ∉ dir.tables
  · obtain ⟨ops, e, hplan, hopened, hbenign⟩ := openPlan_spec hs hlogs config h
    refine ⟨e.snapshot, hopened.loads, (Dir.Kept.refl _ hlogs).applyAll fun op hop => ?_⟩
    rw [hplan] at hop
    exact hbenign op (List.mem_of_mem_take hop)
  · rw [not_or, not_not, not_forall_not] at h
    obtain ⟨hmanifest, n, hn⟩ := h
    refine ⟨Snapshot.default, Or.inr ⟨hmanifest, rfl⟩,
      (Dir.Kept.refl _ hlogs).applyAll fun op hop => ?_⟩
    rw [openPlan_refused config hmanifest hn] at hop
    have hclean : op ∈ Engine.cleanup dir Snapshot.default :=
      List.mem_append_left _ (List.mem_of_mem_take hop)
    exact benign_cleanup hclean dir

end Lsmkv
