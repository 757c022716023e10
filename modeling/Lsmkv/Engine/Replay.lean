import Lsmkv.Engine.Openable
import Lsmkv.Skiplist.Calls

/-!
# Opening a store with the skiplist

`Engine::open` with `MemtableKind::Skiplist` replays every log that is left into one new table,
whose arena is sized for the budget of one table.  `openSkiplist` is that replay.  It inserts the
records of all logs in order (`openSkiplist_eq`), so what it ends with is a question of how many
there are: `openSkiplist_arena_iff` says when it runs out of nodes.

A table of the other kind has room for any number of versions of one key, and logs every one of
them: `overwrites` fills a log with more records than the arena of the next session has nodes
(`openSkiplist_exhausted_after_overwrites`).
-/

namespace Lsmkv

open Skiplist Wal

/-- The nodes of the arena of a new table. -/
def Config.arena (config : Config) : ℕ := (SkipMemtable.new config.memtableBytes).capacity

namespace Engine

/-- Replays the logs that are not the newest. -/
def replaySkiplist (dir : Dir) :
    List ℕ → SkipMemtable → ℕ → SkipMemtable.Call (Except Error (SkipMemtable × ℕ))
  | [], active, lastSeq => pure (.ok (active, lastSeq))
  | number :: rest, active, lastSeq =>
    match Replay.openFile number (dir.logs.lookup number) with
    | .error err => pure (.error err)
    | .ok replay => do
      let records := replay.records.1
      let active ← active.replay records
      let lastSeq := records.foldl (fun last e => max last e.seq) lastSeq
      replaySkiplist dir rest active lastSeq

/-- `Engine::open` with `MemtableKind::Skiplist`, as far as its active table. -/
def openSkiplist (dir : Dir) (config : Config) : SkipMemtable.Call (Except Error SkipMemtable) :=
  let listing := Listing.scan dir
  match loadManifest dir with
  | .error err => pure (.error err)
  | .ok snapshot =>
    let dir := dir.applyAll (cleanup dir snapshot)
    match openLevels dir snapshot with
    | .error err => pure (.error err)
    | .ok _ =>
      let active := SkipMemtable.new config.memtableBytes
      match (Listing.scan dir).logs.getLast? with
      | some newest => do
        match ← replaySkiplist dir (Listing.scan dir).logs.dropLast active snapshot.lastSeq with
        | .error err => pure (.error err)
        | .ok (active, lastSeq) =>
          match Wal.recover newest (dir.logs.lookup newest) lastSeq with
          | .error err => pure (.error err)
          | .ok r => .ok <$> active.replay r.records
      | none =>
        let number := max listing.nextNumber snapshot.nextNumber
        match Wal.recover number (dir.logs.lookup number) snapshot.lastSeq with
        | .error err => pure (.error err)
        | .ok _ => pure (.ok active)

/-! ### What is inserted -/

section

variable {dir : Dir}

theorem replaySkiplist_eq (hlogs : dir.LogsReadable) : ∀ (numbers : List ℕ) (active : SkipMemtable)
    (lastSeq : ℕ), (∀ n ∈ numbers, n ∈ dir.logs) → replaySkiplist dir numbers active lastSeq
      = (fun t => .ok (t, (dir.records numbers).foldl (fun last e => max last e.seq) lastSeq))
        <$> active.replay (dir.records numbers)
  | [], active, lastSeq, _ => rfl
  | n :: numbers, active, lastSeq, hmem => by
    obtain ⟨bytes, hbytes⟩ := Option.isSome_iff_exists.mp
      (AList.lookup_isSome.mpr (hmem n List.mem_cons_self))
    obtain ⟨replay, hopen, hrecords⟩ := Wal.openFile_records n (hlogs n bytes hbytes)
    have hcons : dir.records (n :: numbers) = Wal.contents bytes ++ dir.records numbers := by
      rw [Dir.records, List.flatMap_cons, hbytes]
      rfl
    simp only [replaySkiplist, hbytes, hopen, hrecords]
    rw [hcons, List.foldl_append, SkipMemtable.replay_append, map_bind]
    refine bind_congr fun t => ?_
    exact replaySkiplist_eq hlogs numbers t _ fun m hm => hmem m (List.mem_cons_of_mem _ hm)

/-- **Every record is inserted.**  A directory that can be opened is replayed, all its logs into one
table. -/
theorem openSkiplist_eq (hs : dir.Sound) (hlogs : dir.LogsReadable) (config : Config)
    (h : dir.manifest ≠ none ∨ ∀ n, n ∉ dir.tables) : openSkiplist dir config
      = .ok <$> (SkipMemtable.new config.memtableBytes).replay dir.allRecords := by
  obtain ⟨snapshot, hl, levels₀, harr₀⟩ := hs
  set dir₁ := dir.applyAll (cleanup dir snapshot) with hdir₁
  have hkept : dir.Kept snapshot dir₁ :=
    (Dir.Kept.refl snapshot hlogs).applyAll fun op hop => benign_cleanup hop dir
  obtain ⟨levels, hlevels, -⟩ := (harr₀.congr_dir hkept.tables).openLevels
  rw [← hkept.allRecords, Dir.allRecords]
  unfold openSkiplist
  dsimp only
  rw [loadManifest_of_loads hl h]
  dsimp only
  rw [← hdir₁, hlevels]
  dsimp only
  cases hlast : (Listing.scan dir₁).logs.getLast? with
  | none =>
    obtain ⟨r, hr, -⟩ := Wal.recover_spec (max (Listing.scan dir).nextNumber snapshot.nextNumber)
      snapshot.lastSeq (hkept.readable.getD (max (Listing.scan dir).nextNumber snapshot.nextNumber))
    rw [List.getLast?_eq_none_iff.mp hlast]
    dsimp only
    rw [hr]
    rfl
  | some newest =>
    -- all logs but the newest are replayed first, then the newest is reopened
    have hsplit := (List.dropLast_append_getLast? newest hlast).symm
    have hmem : ∀ n ∈ (Listing.scan dir₁).logs.dropLast, n ∈ dir₁.logs := fun n hn =>
      mem_scan_logs.mp (List.mem_of_mem_dropLast hn)
    dsimp only
    rw [replaySkiplist_eq hkept.readable _ _ _ hmem]
    obtain ⟨r, hr, hrecords, -⟩ := Wal.recover_spec newest
      ((dir₁.records (Listing.scan dir₁).logs.dropLast).foldl (fun last e => max last e.seq)
        snapshot.lastSeq) (hkept.readable.getD newest)
    have hall : dir₁.records (Listing.scan dir₁).logs
        = dir₁.records (Listing.scan dir₁).logs.dropLast ++ r.records := by
      conv_lhs => rw [hsplit]
      rw [hrecords, Dir.records, List.flatMap_append, List.flatMap_singleton]
      rfl
    rw [hall, SkipMemtable.replay_append, bind_map_left, map_bind]
    refine bind_congr fun t => ?_
    dsimp only
    rw [hr]

theorem openSkiplist_refused (config : Config) (hmanifest : dir.manifest = none) {n : ℕ}
    (hn : n ∈ dir.tables) : ∃ err, openSkiplist dir config = pure (.error err) := by
  have hne : (Listing.scan dir).tables ≠ [] := List.ne_nil_of_mem (mem_scan_tables.mpr hn)
  refine ⟨.corrupt .dir "tables are present but the manifest naming them is gone", ?_⟩
  unfold openSkiplist loadManifest
  rw [hmanifest]
  dsimp only
  rw [if_neg hne]

/-- Replaying a directory exhausts the arena if it can be opened and holds a record for every node,
unless another assertion fails before. -/
theorem openSkiplist_eq_arena_iff (hs : dir.Sound) (hlogs : dir.LogsReadable) (config : Config) :
    openSkiplist dir config = throw .arena ↔ (dir.manifest ≠ none ∨ ∀ n, n ∉ dir.tables)
      ∧ config.arena ≤ dir.allRecords.length ∧ EnoughArena config.arena (config.arena - 1) := by
  by_cases hopens : dir.manifest ≠ none ∨ ∀ n, n ∉ dir.tables
  · rw [openSkiplist_eq hs hlogs config hopens, and_iff_right hopens]
    refine Iff.trans ?_ (replay_eq_arena_iff (filled_withCapacity _ _).toCounted (Nat.succ_pos _))
    exact SkipMemtable.map_eq_throw_iff
  · refine ⟨fun h => ?_, fun h => absurd h.1 hopens⟩
    rw [not_or, not_not, not_forall_not] at hopens
    obtain ⟨hmanifest, n, hn⟩ := hopens
    obtain ⟨err, herr⟩ := openSkiplist_refused config hmanifest hn
    rw [herr] at h
    cases h

end

end Engine

/-- **When recovery exhausts the arena.**  Whatever happened before, opening the directory with the
skiplist panics because the arena is exhausted if and only if the directory can be opened, its logs
hold as many records as the arena has nodes, and no other assertion fails before. -/
theorem openSkiplist_arena_iff {w : World} (hw : w.Runs) (hdown : w.engine = none)
    (config : Config) : Engine.openSkiplist w.dir config = throw .arena
      ↔ (w.dir.manifest ≠ none ∨ ∀ n, n ∉ w.dir.tables)
        ∧ config.arena ≤ w.dir.allRecords.length ∧ EnoughArena config.arena (config.arena - 1) := by
  obtain ⟨hsound, hlogs⟩ := (consistent_of_reachable hw).closed hdown
  exact Engine.openSkiplist_eq_arena_iff hsound hlogs config

/-! ### A log with too many records -/

namespace Wal.Shared

/-- A log under `Interval` that took `es` and wrote nothing yet. -/
def buffered (es : List Entry) : Shared :=
  { new .interval ⟨fileHeader, 0, []⟩ with
    buf := Replay.frames es, lastSeq := es.length, appended := es, returned := es }

theorem goto_goto (s : Shared) (t : Thread) (pc pc' : Pc) :
    (s.goto t pc).goto t pc' = s.goto t pc' := by
  unfold goto
  rw [Function.update_idem]

theorem goto_buffered_idle (es : List Entry) (t : Thread) :
    (buffered es).goto t .idle = buffered es := by
  have hidle : Function.update (buffered es).thread t .idle = (buffered es).thread :=
    Function.update_eq_self_iff.mpr rfl
  unfold goto
  rw [hidle]

section

variable {es : List Entry} {client : ℕ} {key : Bytes} {value : Option Bytes}

theorem buffered_accept : ((buffered es).goto (.client client) (.called key value)).step
    (.client client, .accept)
      = some ((buffered es).goto (.client client) (.accepted key value)) := by
  unfold step
  dsimp only
  rw [thread_goto_self]
  exact congrArg some (goto_goto _ _ _ _)

/-- A record that is encoded into a small buffer is not written before the lock is released. -/
theorem encodeRecord_of_small {s : Shared} {t : Thread} {buf : Bytes} (hlock : s.lock = none)
    (hseq : s.lastSeq + 1 < u64Limit)
    (hencode : Record.encode s.buf (s.lastSeq + 1) key value = (.ok (), buf))
    (hpolicy : s.policy ≠ .always) (hsmall : buf.length < maxPendingBytes) :
    s.encodeRecord t key value
      = some ({ s with toLog := s.push ⟨key, s.lastSeq + 1, value⟩ buf }.release t
        ⟨key, s.lastSeq + 1, value⟩) := by
  unfold encodeRecord
  dsimp only
  rw [if_pos ⟨hlock, hseq⟩, hencode]
  dsimp only
  exact if_neg (not_or.mpr ⟨hpolicy, not_le.mpr hsmall⟩)

/-- The next record stays in the buffer as long as that is small. -/
theorem buffered_encode {e : Entry} (hseq : e.seq = es.length + 1) (hfits : Record.Fits e)
    (hsmall : (Replay.frames (es ++ [e])).length < maxPendingBytes) :
    ((buffered es).goto (.client client) (.accepted e.key e.value)).step (.client client, .encode)
      = some ((buffered (es ++ [e])).goto (.client client) (.returned e)) := by
  obtain ⟨key, seq, value⟩ := e
  obtain rfl : seq = es.length + 1 := hseq
  have hencode : Record.encode (Replay.frames es) (es.length + 1) key value
      = (.ok (), Replay.frames (es ++ [⟨key, es.length + 1, value⟩])) := by
    rw [Replay.frames_append, Replay.frames_cons, Replay.frames_nil, List.append_nil]
    exact Record.encode_of_fits (Replay.frames es) hfits.2
  unfold step
  dsimp only
  rw [thread_goto_self]
  refine (encodeRecord_of_small rfl hfits.1 hencode (by rintro ⟨⟩) hsmall).trans ?_
  rw [release, if_neg (by rintro ⟨⟩)]
  simp [acknowledge, goto, buffered, new, Log.push, Function.update_idem]

theorem buffered_resume {e : Entry} : ((buffered es).goto (.client client) (.returned e)).step
    (.client client, .resume) = some (buffered es) := by
  unfold step
  dsimp only
  rw [thread_goto_self]
  dsimp only
  rw [goto_goto, goto_buffered_idle]

end

end Wal.Shared

namespace Engine

/-- A store of one log under `Interval`, all of it in the buffer. -/
def buffered (config : Config) (es : List Entry) : Engine :=
  { opened config 1 ⟨Wal.fileHeader, 0, []⟩ (Memtable.ofRecords es) [1] Snapshot.default [[]] 2 with
    wal := Wal.Shared.buffered es }

/-- The directory of that store. -/
def bufferedDir : Dir := { Dir.empty with logs := (∅ : FileMap Bytes).insert 1 Wal.fileHeader }

end Engine

section

variable {config : Config} {es : List Entry} {ok : World → Action → Prop}

theorem Reachable.engineStep {dir dir' : Dir} {e e' : Engine} {h : History}
    (hw : Reachable World.step ok (· = World.initial) ⟨dir, some e, h⟩) {action : Action}
    (hstep : e.step dir action = some (dir', e')) (hok : ∀ w, ok w action) :
    ∃ h', Reachable World.step ok (· = World.initial) ⟨dir', some e', h'⟩ := by
  refine ⟨h.observe action e e', hw.step (hok _) ?_⟩
  unfold World.step
  cases action with
  | kill cut => cases hstep
  | close fault => cases hstep
  | _ => exact congrArg (Option.map fun p => (⟨p.1, some p.2, _⟩ : World)) hstep

theorem walStep_eq {dir : Dir} {e : Engine} {thread : Wal.Thread} {event : Wal.Event}
    {wal : Wal.Shared} (hinternal : event.internal thread)
    (h : e.wal.step (thread, event) = some wal) :
    e.step dir (.wal thread event)
      = some (dir.writeLog e.walNumber wal.file, { e with wal := wal }) := by
  change Engine.walStep dir e thread event = _
  rw [Engine.walStep, if_pos hinternal, h]
  rfl

theorem Engine.insertStep_of_returned {dir : Dir} {e : Engine} {client : ℕ} {entry : Entry}
    (h : e.wal.thread (.client client) = .returned entry) :
    Engine.insertStep dir e client = (e.wal.step (.client client, .resume)).map fun wal =>
      (dir, { e with wal := wal, state.active := (e.state.active.insert entry).1 }) := by
  rw [Engine.insertStep, h]

/-- A write that stays in the buffer. -/
theorem buffered_write {h : History} {e : Entry}
    (hw : Reachable World.step ok (· = World.initial)
      ⟨Engine.bufferedDir, some (Engine.buffered config es), h⟩)
    (hok : ∀ action ∈ Action.bufferedWrite 1 e.key e.value, ∀ w, ok w action)
    (hseq : e.seq = es.length + 1) (hfits : Record.Fits e)
    (hsmall : (Replay.frames (es ++ [e])).length < Wal.maxPendingBytes) :
    ∃ h', Reachable World.step ok (· = World.initial)
      ⟨Engine.bufferedDir, some (Engine.buffered config (es ++ [e])), h'⟩ := by
  let dir := Engine.bufferedDir
  let s := Wal.Shared.buffered es
  let s' := Wal.Shared.buffered (es ++ [e])
  let t : Wal.Thread := .client 1
  let inside (wal : Wal.Shared) : Engine :=
    { Engine.buffered config es with wal := wal, readers := [1] }
  have hactive : ((Memtable.ofRecords es).insert e).1 = Memtable.ofRecords (es ++ [e]) := by
    rw [Memtable.ofRecords, Memtable.ofRecords, List.foldl_append]
    rfl
  have hwrite : (Engine.buffered config es).step dir (.write 1 e.key e.value)
      = some (dir, inside (s.goto t (.called e.key e.value))) := rfl
  have haccept : (inside (s.goto t (.called e.key e.value))).step dir (.wal t .accept)
      = some (dir, inside (s.goto t (.accepted e.key e.value))) :=
    (walStep_eq rfl Wal.Shared.buffered_accept).trans rfl
  have hencode : (inside (s.goto t (.accepted e.key e.value))).step dir (.wal t .encode)
      = some (dir, inside (s'.goto t (.returned e))) :=
    (walStep_eq rfl (Wal.Shared.buffered_encode hseq hfits hsmall)).trans rfl
  have hinsert : (inside (s'.goto t (.returned e))).step dir (.insert 1)
      = some (dir, { Engine.buffered config (es ++ [e]) with readers := [1] }) := by
    have hreturned : (inside (s'.goto t (.returned e))).wal.thread (.client 1) = .returned e :=
      Wal.Shared.thread_goto_self _ _ _
    refine (Engine.insertStep_of_returned hreturned).trans ?_
    change Option.map _ ((s'.goto t (.returned e)).step (t, .resume)) = _
    rw [Wal.Shared.buffered_resume, Option.map_some]
    change some (dir, ({ inside s' with
      state.active := ((Memtable.ofRecords es).insert e).1 } : Engine)) = _
    rw [hactive]
    rfl
  have hleave : ({ Engine.buffered config (es ++ [e]) with readers := [1] } : Engine).step dir
      (.leave 1) = some (dir, Engine.buffered config (es ++ [e])) := rfl
  simp only [Action.bufferedWrite, List.forall_mem_cons] at hok
  obtain ⟨hok₁, hok₂, hok₃, hok₄, hok₅, -⟩ := hok
  obtain ⟨_, hw₁⟩ := hw.engineStep hwrite hok₁
  obtain ⟨_, hw₂⟩ := hw₁.engineStep haccept hok₂
  obtain ⟨_, hw₃⟩ := hw₂.engineStep hencode hok₃
  obtain ⟨_, hw₄⟩ := hw₃.engineStep hinsert hok₄
  exact hw₄.engineStep hleave hok₅

/-- The first `n` versions of one key. -/
def overwrites (n : ℕ) : List Entry := (List.range n).map fun i => ⟨[1], i + 1, some [7]⟩

theorem length_overwrites (n : ℕ) : (overwrites n).length = n := by
  rw [overwrites, List.length_map, List.length_range]

theorem overwrites_succ (n : ℕ) :
    overwrites (n + 1) = overwrites n ++ [⟨[1], n + 1, some [7]⟩] := by
  rw [overwrites, List.range_succ, List.map_append]
  rfl

theorem length_frames_overwrites (n : ℕ) : (Replay.frames (overwrites n)).length = 27 * n := by
  induction n with
  | zero => rfl
  | succ n ih =>
    rw [overwrites_succ, Replay.frames_append, List.length_append, ih, Replay.frames_cons,
      Replay.frames_nil, List.append_nil, Record.length_frame, Record.length_payload]
    simp only [Record.headerLen, List.length_singleton, Option.elim_some]
    omega

theorem fits_overwrites {n : ℕ} (hn : n < u64Limit) : ∀ e ∈ overwrites n, Record.Fits e := by
  intro e he
  obtain ⟨i, hi, rfl⟩ := List.mem_map.mp he
  refine ⟨Nat.lt_of_le_of_lt (List.mem_range.mp hi) hn, ?_⟩
  rw [Record.length_payload]
  exact (by decide : 19 < u32Limit)

/-- No operation fails, and every session has memtables of the same size. -/
def Action.sized (memtableBytes : ℕ) : Action → Prop
  | .openStore config | .openKilled config _ => config.memtableBytes = memtableBytes
  | action => action.faultless

/-- A session that overwrites one key so many times. -/
theorem buffered_overwrites (n : ℕ) (hsmall : 27 * n < maxPendingBytes) :
    ∃ h, Reachable World.step (fun _ action => action.sized 95) (· = World.initial)
      ⟨Engine.bufferedDir, some (Engine.buffered ⟨.interval, 95, 4, 10⟩ (overwrites n)), h⟩ := by
  induction n with
  | zero =>
    refine ⟨History.fresh (Engine.buffered ⟨.interval, 95, 4, 10⟩ []).get, ?_⟩
    exact Reachable.step (a := .openStore ⟨.interval, 95, 4, 10⟩) (.start rfl) rfl rfl
  | succ n ih =>
    obtain ⟨h, hw⟩ := ih (by omega)
    rw [overwrites_succ]
    refine buffered_write hw ?_ ?_ ?_ ?_
    · simp [Action.bufferedWrite, Action.sized, Action.faultless, Event.faultless]
    · rw [length_overwrites]
    · refine fits_overwrites (n := n + 1) ?_ _ (by rw [overwrites_succ]; simp)
      unfold maxPendingBytes at hsmall
      unfold u64Limit
      omega
    · rwa [← overwrites_succ, length_frames_overwrites]

end

/-- Dropping that store leaves its records in the log. -/
theorem allRecords_buffered (config : Config) {es : List Entry} (hfits : ∀ e ∈ es, Record.Fits e) :
    (Engine.dropped Engine.bufferedDir (Engine.buffered config es) none).allRecords = es := by
  have hfile : ((Engine.buffered config es).wal.writePending none).1.file
      = fileHeader ++ (Replay.frames es ++ []) := by
    rw [List.append_nil]
    exact Log.file_writePending_none _
  have hlogs : (Engine.dropped Engine.bufferedDir (Engine.buffered config es) none).logs
      = (∅ : FileMap Bytes).insert 1 (fileHeader ++ (Replay.frames es ++ [])) := by
    rw [Engine.dropped, hfile]
    rfl
  have hlist :
      (Listing.scan (Engine.dropped Engine.bufferedDir (Engine.buffered config es) none)).logs
        = [1] := by
    refine scan_logs_eq (List.pairwise_singleton _ _) fun n => ?_
    rw [hlogs, AList.mem_insert, List.mem_singleton]
    exact (or_iff_left (AList.notMem_empty n)).symm
  rw [Dir.allRecords, hlist, Dir.records, List.flatMap_singleton, hlogs, AList.lookup_insert,
    Option.getD_some, contents_frames hfits Replay.readFrame_nil]

/-- A session that overwrote one key until its log held a record for every node, and was closed. -/
theorem exists_overwritten : ∃ w,
    Reachable World.step (fun _ action => action.sized 95) (· = World.initial) w
      ∧ w.engine = none ∧ (∀ n, n ∉ w.dir.tables) ∧ w.dir.allRecords = overwrites 1025 := by
  obtain ⟨h, hw⟩ := buffered_overwrites 1025 (by decide)
  exact ⟨_, hw.step (a := .close none) rfl rfl, rfl, fun n hn => AList.notMem_empty n hn,
    allRecords_buffered _ (fits_overwrites (by decide))⟩

theorem enoughArena_smallest : EnoughArena 1025 1024 :=
  enoughArena_of_links (by decide) (by decide) (by decide +kernel)

/-- **Recovery can exhaust the arena.**  A session overwrites one key until its log holds a record
for every node of the arena, and is closed; no operation fails. -/
theorem openSkiplist_exhausted_after_overwrites :
    ¬ ∀ (memtableBytes : ℕ) (w : World),
      Reachable World.step (fun _ action => action.sized memtableBytes) (· = World.initial) w →
        w.engine = none → ∀ config : Config, config.memtableBytes = memtableBytes →
          Engine.openSkiplist w.dir config ≠ throw .arena := by
  intro hall
  obtain ⟨w, hw, hdown, htables, hrecords⟩ := exists_overwritten
  obtain ⟨hsound, hlogs⟩ := (consistent_of_reachable hw).closed hdown
  refine hall 95 w hw hdown ⟨.interval, 95, 4, 10⟩ rfl
    ((Engine.openSkiplist_eq_arena_iff hsound hlogs _).mpr
      ⟨Or.inr htables, ?_, enoughArena_smallest⟩)
  rw [hrecords, length_overwrites]
  exact le_rfl

theorem openSkiplist_arena_iff_overwritten : ∃ w : World, w.Runs ∧ w.engine = none
    ∧ Engine.openSkiplist w.dir ⟨.interval, 95, 4, 10⟩ = throw .arena := by
  obtain ⟨w, hw, hdown, htables, hrecords⟩ := exists_overwritten
  have hruns : w.Runs := hw.mono fun _ _ _ => trivial
  refine ⟨w, hruns, hdown, (openSkiplist_arena_iff hruns hdown _).mpr
    ⟨Or.inr htables, ?_, enoughArena_smallest⟩⟩
  rw [hrecords, length_overwrites]
  exact le_rfl

end Lsmkv
