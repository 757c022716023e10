import Lsmkv.Engine.Consistent
import Lsmkv.Engine.Ledger

/-!
# The sessions of an orderly run

A run is orderly if no operation on a log fails, every replaced log is removed, and a process is
killed only under `Always` or `Group` (`World.Orderly`).  While the store is open there is a ledger
of its mutations; while it is down, `Rests` says what the directory still knows of them: the
mutations of the last session up to some point, which covers every mutation that was inserted.

`Ledger.Holds.rests` goes from the first to the second at the end of a session, and `Rests.holds`
back at the next open.
-/

namespace Lsmkv

open Wal

/-- What a directory that nobody has open knows of the mutations ever made: `past` are those before
the last session, of which the first `m` are left; the logs of `gone` are gone. -/
structure Rests (dir : Dir) (h : History) (past gone disk : List Entry) (m : ℕ) : Prop where
  start : ∀ key, h.start key = (newest past key).bind Version.value
  ordered : (past ++ h.session.map Prod.snd).Pairwise fun v w => v.seq < w.seq
  history : past ++ (h.session.map Prod.snd).take m = gone ++ dir.allRecords
  inserted : ∀ v ∈ h.inserted, v ∈ (h.session.map Prod.snd).take m
  stores : dir.Stores disk
  spans : Spans gone dir.allRecords disk

section

variable {dir dir' : Dir} {e : Engine} {h : History} {l : Ledger} {past gone disk : List Entry}
  {m : ℕ}

/-! ### The end of a session -/

/-- The records of the logs, those of the current one last. -/
theorem Logs.records_eq (hl : Logs dir e) {init : List ℕ}
    (hlive : e.liveLogs = init ++ [e.walNumber]) :
    e.records dir
      = init.flatMap (e.recordsOf dir) ++ (contents e.wal.opened.file ++ e.wal.appended) := by
  rw [Engine.records, hlive, List.flatMap_append, List.flatMap_singleton,
    hl.recordsOf_open (mem_openLogFiles.mpr (Or.inr rfl) : (e.walNumber, e.wal) ∈ _)]

/-- **The end of a session** that leaves everything but the end of the current log. -/
theorem Ledger.Holds.rests (hh : l.Holds dir e h) (hl : Logs dir e)
    (hmanifest : dir'.manifest = dir.manifest) (htables : dir'.tables = dir.tables)
    {init : List ℕ} {j : ℕ} (hlive : e.liveLogs = init ++ [e.walNumber])
    (hall : dir'.allRecords = init.flatMap (e.recordsOf dir)
      ++ (contents e.wal.opened.file ++ e.wal.appended.take j))
    (hreturned : ∀ v ∈ e.wal.appended, v ∈ e.wal.returned → v ∈ e.wal.appended.take j) :
    ∃ m, Rests dir' h l.past l.gone l.disk m := by
  obtain ⟨before, hbefore⟩ := hh.suffix
  have hrecords := hl.records_eq hlive
  have htake : (h.session.map Prod.snd).take (before.length + j)
      = before ++ e.wal.appended.take j := by
    rw [← hbefore, List.take_length_add_append]
  -- what was there before the current log took its first record
  have hfront : l.past ++ before
      = l.gone ++ (init.flatMap (e.recordsOf dir) ++ contents e.wal.opened.file) := by
    have := hh.history
    rw [hrecords, ← hbefore, ← List.append_assoc, ← List.append_assoc, ← List.append_assoc] at this
    rw [List.append_cancel_right this, List.append_assoc]
  refine ⟨before.length + j, hh.start, ?_, ?_, fun v hv => ?_, ?_, ?_, fun v hv => ?_⟩
  · rw [hh.history]
    exact hh.increasing
  · rw [htake, hall, ← List.append_assoc, hfront]
    simp only [List.append_assoc]
  · obtain ⟨hmem, hret⟩ := hh.inserted v hv
    rw [htake]
    rw [← hbefore] at hmem
    rcases List.mem_append.mp hmem with hmem | hmem
    · exact List.mem_append_left _ hmem
    · exact List.mem_append_right _ (hreturned v hmem (hret hmem))
  · exact hh.disk.congr hmanifest fun _ _ _ _ => by rw [htables]
  · exact fun v hv => hh.spans.all v (List.mem_append_left _ hv)
  · -- what the tables hold was numbered before the current log was opened
    have hold : v ∉ e.wal.appended := fun hv' => by
      have := hh.settled v (List.mem_append_right _ hv)
      exact absurd (hl.calm_wal.inv.log.seq_bounds hv').1 (not_lt.mpr this)
    have hrecord : v ∈ e.records dir → v ∈ dir'.allRecords := by
      rw [hrecords, hall]
      simp only [List.mem_append]
      tauto
    rcases hh.spans.only v hv with hv | hv
    · rcases List.mem_append.mp hv with hv | hv
      · exact Or.inl hv
      · refine Or.inr (hrecord ?_)
        rw [Engine.records_eq]
        exact List.mem_append_left _ (List.mem_append_left _ hv)
    · refine Or.inr (hrecord ?_)
      rw [Engine.records_eq]
      cases hsegs : e.segments dir with
      | nil =>
        rw [hsegs] at hv
        exact List.mem_append_right _ (hh.current_sub v hv)
      | cons seg rest =>
        rw [hsegs] at hv
        exact List.mem_append_left _ (List.mem_append_right _ (List.mem_append_left _ hv))

theorem Ledger.Holds.killed (hh : l.Holds dir e h) (hl : Logs dir e)
    (hpolicy : e.config.sync ≠ .interval) (cut : ℕ → ℕ) :
    ∃ m, Rests (e.killed dir cut) h l.past l.gone l.disk m := by
  obtain ⟨init, j, hlive, hj, hall⟩ := hl.allRecords_killed hpolicy cut
  refine hh.rests hl (by rw [killed_eq]) (by rw [killed_eq]) hlive hall fun v hv hret => ?_
  have hle := hl.calm_wal.returned_le (hl.policy_wal ▸ hpolicy) hret
  rw [← hl.calm_wal.inv.log.add_taken] at hle
  exact List.take_subset_take_left _ hj (hl.calm_wal.inv.log.mem_take hv hle)

theorem Ledger.Holds.dropped (hh : l.Holds dir e h) (hl : Logs dir e) (hretired : e.retired = []) :
    (∃ m, Rests (e.dropped dir none) h l.past l.gone l.disk m)
      ∧ (e.dropped dir none).allRecords = e.records dir := by
  obtain ⟨init, hlive, hall⟩ := hl.allRecords_dropped hretired
  refine ⟨hh.rests hl (by rw [dropped_eq])
    (by rw [dropped_eq]) hlive (j := e.wal.appended.length) ?_ ?_, ?_⟩
  · rw [List.take_length, hall]
  · exact fun v hv _ => by rwa [List.take_length]
  · rw [hall, hl.records_eq hlive]

/-! ### The next session -/

theorem Rests.increasing (hr : Rests dir h past gone disk m) :
    (gone ++ dir.allRecords).Pairwise fun v w => v.seq < w.seq := by
  rw [← hr.history]
  exact hr.ordered.sublist ((List.Sublist.refl _).append (List.take_sublist _ _))

/-- A process killed while it opens the store leaves what there was. -/
theorem Rests.kept (hr : Rests dir h past gone disk m) {snapshot : Snapshot}
    (hl : dir.Loads snapshot) (hk : dir.Kept snapshot dir') : Rests dir' h past gone disk m := by
  have hrecords := hk.allRecords
  exact { hr with
    history := by rw [hrecords, hr.history]
    stores := hr.stores.kept hl hk
    spans := by rw [hrecords]; exact hr.spans }

theorem Rests.layers (hr : Rests dir h past gone disk m) {config : Config}
    (ho : OpenedFrom dir config dir' e) : Layers e.state disk gone [] dir.allRecords :=
  ho.layers hr.stores hr.spans (List.pairwise_append.mp hr.increasing).2.2
    (distinct_of_pairwise hr.increasing)

/-- **What a store answers right after it was opened.** -/
theorem Rests.get (hr : Rests dir h past gone disk m) {config : Config}
    (ho : OpenedFrom dir config dir' e) (key : Bytes) :
    e.get key = (newest (gone ++ dir.allRecords) key).bind Version.value := by
  rw [Engine.get, State.get_eq_head _ _ ho.arranged.deep_sorted]
  have := (hr.layers ho).represents.value_eq key
  rwa [List.flatten_nil, List.append_nil] at this

/-- **A store that was just opened** has a ledger. -/
theorem Rests.holds (hr : Rests dir h past gone disk m) {config : Config}
    (ho : OpenedFrom dir config dir' e) :
    Ledger.Holds ⟨gone ++ dir.allRecords, gone, dir.allRecords, disk, disk⟩ dir' e
      (History.fresh e.get) := by
  obtain ⟨r, heq, -, -, hbase, hall, hlast⟩ := ho.fresh
  have hwal : e.wal = Shared.new config.sync r := by rw [heq]; rfl
  have hleaving : e.leaving dir' = [] := by rw [Engine.leaving, heq]; rfl
  have hsegments : e.segments dir' = [] := by rw [Engine.segments, heq]; rfl
  have hrecords : e.records dir' = dir.allRecords := ho.logs.2
  have hactive : e.activeRecords dir' = dir.allRecords := by
    rw [← hrecords, Engine.records_eq, hleaving, hsegments]
    rfl
  have hdisk : ∀ v ∈ disk, v.seq ≤ e.snapshot.lastSeq := (ho.represents hr.stores).2
  have hgone : ∀ v ∈ gone, v.seq ≤ r.lastSeq := fun v hv =>
    (hdisk v (hr.spans.all v hv)).trans hbase
  exact {
    start := hr.get ho
    history := by rw [hrecords]; exact List.append_nil _
    increasing := by rw [hrecords]; exact hr.increasing
    bounded := by
      rw [hrecords, hwal]
      exact fun v hv => (List.mem_append.mp hv).elim (hgone v) (hall v)
    suffix := by rw [hwal]; exact List.nil_suffix
    inserted := fun v hv => by cases hv
    layers := by rw [hleaving, hsegments, List.append_nil]; exact hr.layers ho
    current_sub := fun v hv => by rw [hactive]; exact hv
    pending := fun v hv => by rw [hactive] at hv; exact Or.inl hv
    older := by
      rw [hleaving, hsegments, hwal]
      intro v hv
      simp only [List.flatten_nil, List.append_nil] at hv
      exact hgone v hv
    disk := hr.stores.kept ho.loads ho.kept
    spans := by rw [hleaving, hsegments, List.append_nil]; exact hr.spans
    settled := by
      rw [hwal]
      exact fun v hv => (hdisk v ((List.mem_append.mp hv).elim id id)).trans hbase
    numbered := hdisk
    snapshot_le := by rw [hwal]; exact hbase
    last := by
      rw [hsegments, hactive, hwal]
      exact hlast
    jobs := fun slot => by rw [heq]; trivial }

end

/-! ### Whole runs -/

namespace World

/-- Whether no operation on a log fails in a step, no replaced log stays behind, and a kill catches
a log that acknowledges nothing before it is in the file. -/
def Orderly (w : World) (action : Action) : Prop :=
  ∀ e, w.engine = some e → match action with
    | .kill _ => e.config.sync ≠ .interval
    | .close fault => fault = none
    | action => e.Orderly action

/-- Every mutation is accounted for. -/
def Accounted (w : World) : Prop :=
  match w.engine with
  | none => ∃ past gone disk m, Rests w.dir w.history past gone disk m
  | some e => Logs w.dir e ∧ ∃ l : Ledger, l.Holds w.dir e w.history

theorem accounted_initial : initial.Accounted := by
  refine ⟨[], [], [], 0, ?_⟩
  exact {
    start := fun _ => rfl
    ordered := List.Pairwise.nil
    history := rfl
    inserted := fun _ hv => by cases hv
    stores := Dir.empty_stores
    spans := spans_refl _ _ }

theorem Accounted.step {w w' : World} {action : Action} (hc : w.Consistent) (ha : w.Accounted)
    (ho : w.Orderly action) (hm : w.Moves action w') : w'.Accounted := by
  unfold Accounted Consistent at *
  cases hm with
  | @engine e e' action dir' hengine hmoves =>
    rw [hengine] at ha hc
    obtain ⟨hl, l, hh⟩ := ha
    have horderly : e.Orderly action := by
      have := ho e hengine
      cases hmoves <;> exact this
    exact ⟨(hl.step hc.1 hc.2.readable horderly hmoves).1,
      hh.step hl hc.1 hc.2.readable horderly hmoves⟩
  | @kill e cut hengine =>
    rw [hengine] at ha
    obtain ⟨hl, l, hh⟩ := ha
    exact ⟨_, _, _, hh.killed hl (ho e hengine) cut⟩
  | @close e fault hengine hrest =>
    rw [hengine] at ha
    obtain ⟨hl, l, hh⟩ := ha
    obtain rfl : fault = none := ho e hengine
    exact ⟨_, _, _, (hh.dropped hl (Engine.atRest_iff.mp hrest).2.2.1).1⟩
  | openStore hengine hopen =>
    rw [hengine] at ha hc
    obtain ⟨past, gone, disk, m, hr⟩ := ha
    have hopened := openedFrom hc.1 hc.2 hopen
    exact ⟨hopened.logs.1, _, hr.holds hopened⟩
  | openKilled hengine =>
    rw [hengine] at ha hc
    obtain ⟨past, gone, disk, m, hr⟩ := ha
    obtain ⟨snapshot, hl, hkept⟩ := openKilled_kept hc.1 hc.2 _ _
    exact ⟨past, gone, disk, m, hr.kept hl hkept⟩

/-- **Every mutation of an orderly run is accounted for.** -/
theorem accounted_of_reachable {ok : World → Action → Prop} (hok : ∀ w action, ok w action →
    w.Orderly action) {w : World} (hw : Reachable step ok (· = initial) w) : w.Accounted := by
  refine hw.invariant ?_ fun _ _ _ hreach ha hok' h => ?_
  · rintro _ rfl
    exact accounted_initial
  · exact ha.step (consistent_of_reachable hreach) (hok _ _ hok') (moves_of_step h)

end World

end Lsmkv
