import Lsmkv.Engine.Open

/-!
# The layers of the memory

A key is looked up in the active memtable, then in the frozen ones, newest first, then in the
files.  `Layers s stored base segs current` says which mutations each layer answers for: the active
memtable has `current`, the frozen ones have the segments `segs`, oldest first, each newer than the
ones before it, and the files represent `stored`, which is all of `base` and possibly some of the
oldest segment as well.  A log that was replayed into the active memtable while its table was
already committed is why the two can overlap.

A lookup then answers with the newest of all the mutations (`Layers.represents`).  An insert, a
rotation and the two commits move mutations between the layers and keep the rest.

`Dir.Stores dir stored` is the same for the files the manifest on disk names, and
`OpenedFrom.layers` says what the layers are when a store has just been opened.
-/

namespace Lsmkv

open State

/-- Every version of `g` is older than every version of `h`. -/
def Before (g h : List Entry) : Prop := ∀ v ∈ g, ∀ w ∈ h, v.seq < w.seq

/-- The history `h` has all of `base`, and beyond it only what is in `first`. -/
structure Spans (base first h : List Entry) : Prop where
  all : ∀ v ∈ base, v ∈ h
  only : ∀ v ∈ h, v ∈ base ∨ v ∈ first

/-- Which mutations the layers of the memory answer for. -/
structure Layers (s : State) (stored base : List Entry) (segs : List (List Entry))
    (current : List Entry) : Prop where
  distinct : Distinct (base ++ segs.flatten ++ current)
  ordered : (base :: (segs ++ [current])).Pairwise Before
  active : s.active = Memtable.ofRecords current
  frozen : List.Forall₂ (fun f seg => ∀ key, f.memtable.run.find key = newest seg key)
    s.frozen.reverse segs
  levels : Represents (levelChain s.levels) stored
  spans : Spans base (segs.headD current) stored

section

variable {s : State} {stored base seg current : List Entry} {segs rest : List (List Entry)}

theorem Before.append_left {g h i : List Entry} (hg : Before g i) (hh : Before h i) :
    Before (g ++ h) i := by
  intro v hv
  rcases List.mem_append.mp hv with hv | hv
  · exact hg v hv
  · exact hh v hv

theorem Before.mono {g h g' h' : List Entry} (hb : Before g h) (hg : ∀ v ∈ g', v ∈ g)
    (hh : ∀ v ∈ h', v ∈ h) : Before g' h' := fun v hv w hw => hb v (hg v hv) w (hh w hw)

/-- Two neighbours in an ordered list of segments can be joined. -/
theorem pairwise_join {g h : List Entry} {rest : List (List Entry)}
    (hp : (g :: h :: rest).Pairwise Before) : ((g ++ h) :: rest).Pairwise Before := by
  obtain ⟨hg, hp⟩ := List.pairwise_cons.mp hp
  obtain ⟨hh, hp⟩ := List.pairwise_cons.mp hp
  exact List.pairwise_cons.mpr
    ⟨fun i hi => (hg i (List.mem_cons_of_mem _ hi)).append_left (hh i hi), hp⟩

theorem spans_refl (base first : List Entry) : Spans base first base :=
  ⟨fun _ h => h, fun _ h => Or.inl h⟩

/-- The layers are those of the memtables and the files. -/
theorem Layers.congr {s' : State} (hl : Layers s stored base segs current)
    (hactive : s'.active = s.active) (hfrozen : s'.frozen = s.frozen)
    (hlevels : s'.levels = s.levels) : Layers s' stored base segs current :=
  { hl with
    active := hactive.trans hl.active
    frozen := hfrozen ▸ hl.frozen
    levels := hlevels ▸ hl.levels }

/-! ### What a lookup answers -/

/-- The frozen memtables in front of the files. -/
theorem represents_frozen {fs : List Frozen} {c : Bytes → List Entry}
    (hfrozen : List.Forall₂ (fun f seg => ∀ key, f.memtable.run.find key = newest seg key) fs segs)
    (hc : Represents c stored) (hspans : Spans base (segs.headD current) stored)
    (hordered : (base :: (segs ++ [current])).Pairwise Before)
    (hd : Distinct (base ++ segs.flatten ++ current)) :
    ∃ stored', Spans (base ++ segs.flatten) current stored'
      ∧ Represents (fun key => fs.reverse.filterMap (fun f => f.memtable.run.find key) ++ c key)
        stored' := by
  induction hfrozen generalizing base stored c with
  | nil => exact ⟨stored, by simpa using hspans, by simpa using hc⟩
  | @cons f seg fs segs hf _ ih =>
    have hlt : Before base seg := (List.pairwise_cons.mp hordered).1 seg List.mem_cons_self
    have hd' : Distinct (base ++ seg) := hd.mono fun v hv => by
      rw [List.flatten_cons, ← List.append_assoc]
      exact List.mem_append_left _ (List.mem_append_left _ hv)
    have hc' := hc.overlay hspans.all hspans.only hlt hd' hf
    obtain ⟨stored', hspans', hstored'⟩ := ih hc' (spans_refl _ _) (pairwise_join hordered)
      (by rwa [List.flatten_cons, ← List.append_assoc] at hd)
    refine ⟨stored', by rwa [List.flatten_cons, ← List.append_assoc], ?_⟩
    have hchain : (fun key => (f :: fs).reverse.filterMap (fun f => f.memtable.run.find key)
        ++ c key) = fun key => fs.reverse.filterMap (fun f => f.memtable.run.find key)
          ++ ((f.memtable.run.find key).toList ++ c key) := by
      funext key
      rw [List.reverse_cons, List.filterMap_append, List.append_assoc]
      cases hfind : f.memtable.run.find key <;> simp [hfind]
    rwa [hchain]

/-- What is in the active memtable is newer than what is frozen or in files. -/
theorem Layers.before_current (hl : Layers s stored base segs current) :
    Before (base ++ segs.flatten) current := by
  obtain ⟨hbase, hsegs⟩ := List.pairwise_cons.mp hl.ordered
  refine (hbase current (by simp)).append_left fun v hv => ?_
  obtain ⟨seg, hseg, hv⟩ := List.mem_flatten.mp hv
  exact (List.pairwise_append.mp hsegs).2.2 seg hseg current (by simp) v hv

/-- **A lookup answers with the newest mutation** of all layers. -/
theorem Layers.represents (hl : Layers s stored base segs current) :
    Represents s.chain (base ++ segs.flatten ++ current) := by
  obtain ⟨stored', hspans, hc⟩ :=
    represents_frozen hl.frozen hl.levels hl.spans hl.ordered hl.distinct
  have hactive : ∀ key, s.active.run.find key = newest current key := fun key => by
    rw [hl.active, Memtable.find_ofRecords]
  have := hc.overlay hspans.all hspans.only hl.before_current hl.distinct hactive
  have hchain : s.chain = fun key => (s.active.run.find key).toList
      ++ (s.frozen.filterMap (fun f => f.memtable.run.find key) ++ levelChain s.levels key) :=
    funext fun key => List.append_assoc _ _ _
  rwa [List.reverse_reverse, ← hchain] at this

/-! ### Writes and rotations -/

/-- A mutation newer than what is frozen or in files goes into the active memtable. -/
theorem Layers.insert (hl : Layers s stored base segs current) {entry : Entry}
    (hbefore : ∀ v ∈ base ++ segs.flatten, v.seq < entry.seq)
    (hcurrent : ∀ v ∈ current, v.seq = entry.seq → v = entry) :
    Layers { s with active := (s.active.insert entry).1 } stored base segs
      (current ++ [entry]) where
  distinct := by
    rw [← List.append_assoc]
    intro v hv w hw hvw
    have hnew : ∀ u ∈ base ++ segs.flatten ++ current, u.seq = entry.seq → u = entry := by
      intro u hu heq
      rcases List.mem_append.mp hu with hu | hu
      · exact absurd heq (hbefore u hu).ne
      · exact hcurrent u hu heq
    rw [List.mem_append, List.mem_singleton] at hv hw
    rcases hv with hv | rfl <;> rcases hw with hw | rfl
    · exact hl.distinct v hv w hw hvw
    · exact hnew v hv hvw
    · exact (hnew w hw hvw.symm).symm
    · rfl
  ordered := by
    obtain ⟨hbase, hsegs⟩ := List.pairwise_cons.mp hl.ordered
    obtain ⟨hsegs, -, hcur⟩ := List.pairwise_append.mp hsegs
    -- every older segment is older than the new mutation too
    have hlast : ∀ g, (∀ v ∈ g, v ∈ base ++ segs.flatten) → Before g current →
        Before g (current ++ [entry]) := by
      intro g hg hb v hv w hw
      rcases List.mem_append.mp hw with hw | hw
      · exact hb v hv w hw
      · rw [List.mem_singleton.mp hw]
        exact hbefore v (hg v hv)
    refine List.pairwise_cons.mpr ⟨fun g hg => ?_, List.pairwise_append.mpr
      ⟨hsegs, List.pairwise_singleton _ _, fun g hg h hh => ?_⟩⟩
    · rcases List.mem_append.mp hg with hg | hg
      · exact hbase g (List.mem_append_left _ hg)
      · rw [List.mem_singleton.mp hg]
        exact hlast base (fun v => List.mem_append_left _) (hbase current (by simp))
    · rw [List.mem_singleton.mp hh]
      exact hlast g (fun v hv => List.mem_append_right _ (List.mem_flatten_of_mem hg hv))
        (hcur g hg current (by simp))
  active := by rw [hl.active, Memtable.ofRecords, Memtable.ofRecords, List.foldl_append]; rfl
  frozen := hl.frozen
  levels := hl.levels
  spans := by
    refine ⟨hl.spans.all, fun v hv => ?_⟩
    cases segs with
    | cons seg rest => exact hl.spans.only v hv
    | nil => exact (hl.spans.only v hv).imp_right (List.mem_append_left _)

/-- A rotation freezes the active memtable.  The new segment lists what the memtable took, in any
order. -/
theorem Layers.rotate (hl : Layers s stored base segs current)
    (hseg : ∀ v, v ∈ seg ↔ v ∈ current) (logs : List ℕ) :
    Layers { s with active := Memtable.new, activeLogs := logs
                    frozen := ⟨s.active, s.activeLogs⟩ :: s.frozen }
      stored base (segs ++ [seg]) [] where
  distinct := hl.distinct.mono fun v hv => by
    simp only [List.flatten_append, List.flatten_cons, List.flatten_nil, List.append_nil,
      List.mem_append, hseg] at hv ⊢
    tauto
  ordered := by
    have hp : (base :: (segs ++ [seg])).Pairwise Before := by
      obtain ⟨hbase, hsegs⟩ := List.pairwise_cons.mp hl.ordered
      obtain ⟨hsegs, -, hcur⟩ := List.pairwise_append.mp hsegs
      have hlast : ∀ {g}, Before g current → Before g seg := fun hb =>
        hb.mono (fun _ h => h) fun v hv => (hseg v).mp hv
      refine List.pairwise_cons.mpr ⟨fun g hg => ?_, List.pairwise_append.mpr
        ⟨hsegs, List.pairwise_singleton _ _, fun g hg h hh => ?_⟩⟩
      · rcases List.mem_append.mp hg with hg | hg
        · exact hbase g (List.mem_append_left _ hg)
        · rw [List.mem_singleton.mp hg]
          exact hlast (hbase current (by simp))
      · rw [List.mem_singleton.mp hh]
        exact hlast (hcur g hg current (by simp))
    rw [← List.cons_append]
    exact List.pairwise_append.mpr ⟨hp, List.pairwise_singleton _ _, fun g _ h hh v _ w hw => by
      rw [List.mem_singleton.mp hh] at hw
      cases hw⟩
  active := rfl
  frozen := by
    rw [List.reverse_cons]
    refine List.rel_append hl.frozen (List.Forall₂.cons (fun key => ?_) List.Forall₂.nil)
    rw [hl.active, Memtable.find_ofRecords]
    exact newest_congr (hl.distinct.mono fun v hv => List.mem_append_right _ ((hseg v).mp hv))
      fun v _ => (hseg v).symm
  levels := hl.levels
  spans := by
    refine ⟨hl.spans.all, fun v hv => ?_⟩
    cases segs with
    | cons seg' rest => exact hl.spans.only v hv
    | nil => exact (hl.spans.only v hv).imp_right (hseg v).mpr

/-! ### Commits -/

/-- A rewrite of the files keeps the layers. -/
theorem Layers.relevel (hl : Layers s stored base segs current) {levels : List (List Table)}
    (h : Represents (levelChain levels) stored) :
    Layers { s with levels := levels } stored base segs current :=
  { hl with levels := h }

/-- The oldest frozen memtable has the oldest segment. -/
theorem Layers.exists_seg (hl : Layers s stored base segs current) {f : Frozen}
    (hlast : s.frozen.getLast? = some f) : ∃ seg rest, segs = seg :: rest
      ∧ (∀ key, f.memtable.run.find key = newest seg key)
      ∧ List.Forall₂ (fun f seg => ∀ key, f.memtable.run.find key = newest seg key)
        s.frozen.dropLast.reverse rest := by
  have hreverse : s.frozen.reverse = f :: s.frozen.dropLast.reverse := by
    obtain ⟨init, hinit⟩ := List.getLast?_eq_some_iff.mp hlast
    rw [hinit, List.reverse_append, List.dropLast_concat]
    rfl
  have hfrozen := hl.frozen
  rw [hreverse] at hfrozen
  obtain ⟨seg, rest, hseg, hrest, rfl⟩ := List.forall₂_cons_left_iff.mp hfrozen
  exact ⟨seg, rest, rfl, hseg, hrest⟩

/-- The table of the oldest segment in front of the files. -/
theorem Layers.levelChain_flush (hl : Layers s stored base (seg :: rest) current) {t : Table}
    (hne : s.levels ≠ []) (ht : ∀ key, t.table.run.find key = newest seg key) :
    Represents (levelChain (s.levels.modify 0 ([t] ++ ·))) (base ++ seg) := by
  have hchain : levelChain (s.levels.modify 0 ([t] ++ ·))
      = fun key => (t.table.run.find key).toList ++ levelChain s.levels key :=
    funext (Lsmkv.levelChain_flush hne t)
  rw [hchain]
  refine hl.levels.overlay hl.spans.all hl.spans.only ?_ ?_ ht
  · exact (List.pairwise_cons.mp hl.ordered).1 seg List.mem_cons_self
  · exact hl.distinct.mono fun v hv => by
      rw [List.flatten_cons, ← List.append_assoc]
      exact List.mem_append_left _ (List.mem_append_left _ hv)

/-- A flush moves the oldest segment into the files. -/
theorem Layers.flush (hl : Layers s stored base (seg :: rest) current) {levels : List (List Table)}
    (hlevels : Represents (levelChain levels) (base ++ seg))
    (hfrozen : List.Forall₂ (fun f seg => ∀ key, f.memtable.run.find key = newest seg key)
      s.frozen.dropLast.reverse rest) :
    Layers { s with levels := levels, frozen := s.frozen.dropLast } (base ++ seg) (base ++ seg)
      rest current where
  distinct := by
    have := hl.distinct
    rwa [List.flatten_cons, ← List.append_assoc] at this
  ordered := pairwise_join hl.ordered
  active := hl.active
  frozen := hfrozen
  levels := hlevels
  spans := spans_refl _ _

/-- **What a commit publishes.**  A flush moves the oldest segment into the files, a compaction
leaves every mutation where it was. -/
theorem Layers.publish {dir : Dir} {e : Engine} {slot : Slot} {job : Job} {next : Snapshot}
    {phase : CommitPhase} (hl : Layers e.state stored base segs current) (hi : Files dir e)
    (hpc : e.jobs slot = .committing job next phase) :
    (∃ f seg rest, job.target = .flush f ∧ segs = seg :: rest
      ∧ Layers (job.target.publish job.outputs e.state) (base ++ seg) (base ++ seg) rest current)
    ∨ ((∀ f, job.target ≠ .flush f)
      ∧ Layers (job.target.publish job.outputs e.state) stored base segs current) := by
  have hjob := hi.jobs slot
  rw [hpc] at hjob
  obtain ⟨hj, hc, -⟩ := hjob
  cases htarget : job.target with
  | flush f =>
    obtain ⟨-, hlast, t, houtputs, hrun⟩ := hj.flush_output hc htarget
    obtain ⟨seg, rest, rfl, hfind, hrest⟩ := hl.exists_seg hlast
    have hlevels := hl.levelChain_flush (t := t) hi.arranged.levels_ne (fun key => hrun ▸ hfind key)
    refine Or.inl ⟨f, seg, rest, rfl, rfl, ?_⟩
    rw [houtputs]
    exact hl.flush hlevels hrest
  | compact snapshot plan =>
    obtain ⟨-, hplanned, hmerges⟩ := hj.merges hc htarget
    refine Or.inr ⟨(fun f hf => nomatch hf), hl.relevel (hl.levels.shrink fun key => ?_)⟩
    exact hplanned.shrinks hi.arranged hmerges (hl.levels key).2.1

end

/-! ### Directories -/

/-- The tables the manifest names represent a history, and its last sequence number covers it. -/
def Dir.Stores (dir : Dir) (stored : List Entry) : Prop :=
  ∃ snapshot levels, dir.Loads snapshot ∧ Arranged dir levels snapshot.files
    ∧ Represents (levelChain levels) stored ∧ ∀ v ∈ stored, v.seq ≤ snapshot.lastSeq

theorem Dir.empty_stores : Dir.empty.Stores [] :=
  ⟨Snapshot.default, [[]], Or.inr ⟨rfl, rfl⟩, arranged_nil _, Represents.nil,
    fun _ hv => nomatch hv⟩

/-- A directory with the same manifest and the same tables under the names it has. -/
theorem Dir.Stores.congr {dir dir' : Dir} {stored : List Entry} (hs : dir.Stores stored)
    (hmanifest : dir'.manifest = dir.manifest) (htables : ∀ snapshot, dir.Loads snapshot →
      ∀ f ∈ snapshot.files, dir'.tables.lookup f.number = dir.tables.lookup f.number) :
    dir'.Stores stored := by
  obtain ⟨snapshot, levels, hl, harr, hrep, hlast⟩ := hs
  exact ⟨snapshot, levels, (Dir.Loads.congr hmanifest).mpr hl, harr.congr_dir (htables snapshot hl),
    hrep, hlast⟩

theorem Dir.Stores.kept {dir dir' : Dir} {stored : List Entry} (hs : dir.Stores stored)
    {snapshot : Snapshot} (hl : dir.Loads snapshot) (hk : dir.Kept snapshot dir') :
    dir'.Stores stored :=
  hs.congr hk.manifest fun _ hl' => hl.unique hl' ▸ hk.tables

/-- A step that does not replace the manifest leaves the tables it names alone. -/
theorem Engine.Moves.named {dir dir' : Dir} {e e' : Engine} {action : Action}
    (h : Engine.Moves dir e action dir' e') (hi : Files dir e)
    (haction : ∀ slot, action ≠ .renameManifest slot) :
    dir'.manifest = dir.manifest ∧ ∀ snapshot, dir.Loads snapshot →
      ∀ f ∈ snapshot.files, dir'.tables.lookup f.number = dir.tables.lookup f.number := by
  by_cases hslot : action.slot = none
  · have hside := h.logSide hslot
    exact ⟨hside.manifest, fun _ _ _ _ => by rw [hside.tables]⟩
  -- the files of a task are not named by the manifest
  have hhidden : ∀ (slot : Slot) {number : ℕ}, (e.jobs slot).isRenamed = false →
      number ∈ (e.jobs slot).names → ∀ snapshot, dir.Loads snapshot → ∀ f ∈ snapshot.files,
      f.number ≠ number := fun slot _ hrenamed hmem _ hl => hi.hidden slot hrenamed _ hmem _ hl
  cases h with
  | @rename slot target run number todo outputs content hpc hcontent =>
    refine ⟨rfl, fun snapshot hl f hf => AList.lookup_insert_ne ?_⟩
    refine hhidden slot (by rw [hpc]; rfl) ?_ snapshot hl f hf
    rw [hpc]
    exact List.mem_append_right _ (List.mem_singleton_self _)
  | @unlinkTable slot snapshot plan number rest hpc =>
    refine ⟨rfl, fun snapshot hl f hf => AList.lookup_erase_ne ?_⟩
    refine hhidden slot (by rw [hpc]; rfl) ?_ snapshot hl f hf
    rw [hpc]
    exact List.mem_cons_self
  | @renameManifest slot => exact absurd rfl (haction slot)
  | write | sync | wal | insert | leave | rotateNot | rotate | rotateWrite | rotateSwap
  | rotateFail | oldWal | dropLog => exact absurd rfl hslot
  | _ => exact ⟨rfl, fun _ _ _ _ => rfl⟩

theorem Dir.Stores.step {dir dir' : Dir} {e e' : Engine} {stored : List Entry}
    (hs : dir.Stores stored) (hi : Files dir e) {action : Action}
    (h : Engine.Moves dir e action dir' e') (haction : ∀ slot, action ≠ .renameManifest slot) :
    dir'.Stores stored := by
  obtain ⟨hmanifest, htables⟩ := h.named hi haction
  exact hs.congr hmanifest htables

section

variable {dir dir' : Dir} {config : Config} {e : Engine} {stored base : List Entry}

/-- The levels of a store that was just opened. -/
theorem OpenedFrom.represents (h : OpenedFrom dir config dir' e) (hs : dir.Stores stored) :
    Represents (levelChain e.state.levels) stored ∧ ∀ v ∈ stored, v.seq ≤ e.snapshot.lastSeq := by
  obtain ⟨snapshot, levels, hl, harr, hrep, hlast⟩ := hs
  obtain rfl := hl.unique h.loads
  have hchain : levelChain e.state.levels = levelChain levels :=
    funext (h.arranged.levelChain_eq (harr.congr_dir h.kept.tables))
  exact ⟨hchain ▸ hrep, hlast⟩

/-- **The layers of a store that was just opened**: its logs are replayed into the active memtable,
over the files. -/
theorem OpenedFrom.layers (h : OpenedFrom dir config dir' e) (hs : dir.Stores stored)
    (hspans : Spans base dir.allRecords stored) (hbefore : Before base dir.allRecords)
    (hd : Distinct (base ++ dir.allRecords)) : Layers e.state stored base [] dir.allRecords where
  distinct := by simpa using hd
  ordered := by simpa using hbefore
  active := h.active
  frozen := by
    obtain ⟨r, heq, -⟩ := h.fresh
    rw [heq]
    exact List.Forall₂.nil
  levels := (h.represents hs).1
  spans := hspans

end

end Lsmkv
