import Lsmkv.Engine.Sessions
import Lsmkv.Lib.VersionedMap

/-!
# What a session can see

A session starts with the mutations `past` that the directory had, all numbered before the first one
of its own.  From then on a lookup answers with the newest mutation inserted in the session, and for
a key without one with what the session started with (`Visible.get`).  This needs an orderly past,
but not an orderly session: a mutation whose append failed is never inserted, and neither a failed
flush nor a failed compaction changes what the layers answer.
-/

namespace Lsmkv

open Wal

/-- The layers of the memory hold the mutations of the past and those inserted since. -/
structure Visible (e : Engine) (h : History) (past : List Entry) : Prop where
  wal : e.wal.Inv
  start : ∀ key, h.start key = (newest past key).bind Version.value
  older : ∀ v ∈ past, v.seq ≤ e.wal.opened.lastSeq
  later : ∀ v ∈ past, ∀ u ∈ h.inserted, v.seq < u.seq
  layers : ∃ stored base segs current, past ++ h.inserted = base ++ segs.flatten ++ current
    ∧ Layers e.state stored base segs current
    ∧ (∀ v ∈ base ++ segs.flatten, v.seq ≤ e.wal.opened.lastSeq)
    ∧ ∀ v ∈ current, v ∈ e.wal.appended ∨ v.seq ≤ e.wal.opened.lastSeq

section

variable {dir dir' : Dir} {e e' : Engine} {h h' : History} {past : List Entry}

/-- **A lookup answers from the session**, and from the past for the keys the session has not
touched. -/
theorem Visible.get (hv : Visible e h past) (hi : Files dir e) :
    e.get = overlay h.start h.inserted := by
  obtain ⟨stored, base, segs, current, hsplit, hl, -, -⟩ := hv.layers
  funext key
  rw [Engine.get, State.get_eq_head _ _ hi.arranged.deep_sorted, hl.represents.value_eq key,
    ← hsplit, newest_append hv.later]
  unfold overlay
  rw [hv.start]
  cases newest h.inserted key <;> rfl

/-- A step of a thread in the log. -/
theorem Visible.walStep (hv : Visible e h past) {label : Thread × Event} {wal : Shared}
    (hstep : e.wal.step label = some wal) (hwal : e'.wal = wal) (hstate : e'.state = e.state) :
    Visible e' h past := by
  obtain ⟨stored, base, segs, current, hsplit, hl, hold, hcurrent⟩ := hv.layers
  subst hwal
  have hopened := (Shared.step_policy hstep).2
  refine ⟨hv.wal.step hstep, hv.start, hopened ▸ hv.older, hv.later, stored, base, segs, current,
    hsplit, hstate ▸ hl, hopened ▸ hold, fun v hv => ?_⟩
  rw [hopened]
  exact (hcurrent v hv).imp_left fun hv => (Shared.step_appended hstep).subset hv

/-- A mutation that is inserted is newer than the past and than everything frozen. -/
theorem Visible.insert (hv : Visible e h past) {t : Thread} {entry : Entry}
    (hthread : e.wal.thread t = .returned entry) (hstart : h'.start = h.start)
    (hinserted : h'.inserted = h.inserted ++ [entry]) :
    Visible { e with state.active := (e.state.active.insert entry).1 } h' past := by
  obtain ⟨stored, base, segs, current, hsplit, hl, hold, hcurrent⟩ := hv.layers
  have happended := (hv.wal.done entry (hv.wal.fact_of_eq hthread)).1
  have hnew := (hv.wal.log.seq_bounds happended).1
  refine ⟨hv.wal, hstart ▸ hv.start, hv.older, fun v hp u hu => ?_, stored, base, segs,
    current ++ [entry], ?_, hl.insert (fun v hv => (hold v hv).trans_lt hnew) fun v hv hseq => ?_,
    hold, fun v hv => ?_⟩
  · rw [hinserted] at hu
    rcases List.mem_append.mp hu with hu | hu
    · exact hv.later v hp u hu
    · rw [List.mem_singleton.mp hu]
      exact (hv.older v hp).trans_lt hnew
  · rw [hinserted, ← List.append_assoc, hsplit, List.append_assoc]
  · rcases hcurrent v hv with hv | hv
    · exact distinct_of_pairwise ‹Visible e h past›.wal.log.pairwise v hv entry happended hseq
    · exact absurd hseq (hv.trans_lt hnew).ne
  · rcases List.mem_append.mp hv with hv | hv
    · exact hcurrent v hv
    · rw [List.mem_singleton.mp hv]
      exact Or.inl happended

/-- A rotation opens the next log behind everything numbered so far. -/
theorem Visible.rotateSwap (hv : Visible e h past) {number : ℕ} {file : Option Bytes}
    {r : Recovered} (hrecover : recover number file e.wal.lastSeq = .ok r)
    (hwal : e'.wal = Shared.new e.config.sync r)
    (hstate : e'.state = { e.state with active := Memtable.new, activeLogs := [number]
                                        frozen := ⟨e.state.active,
                                          e.state.activeLogs⟩ :: e.state.frozen }) :
    Visible e' h past := by
  obtain ⟨stored, base, segs, current, hsplit, hl, hold, hcurrent⟩ := hv.layers
  obtain ⟨-, hintact, -, hlast, -⟩ := spec_of_recover hrecover
  have hlog := hv.wal.log
  have hopened : e.wal.opened.lastSeq ≤ r.lastSeq :=
    (hlog.last ▸ Nat.le_add_right _ _ : e.wal.opened.lastSeq ≤ e.wal.lastSeq).trans hlast
  have hr : e'.wal.opened.lastSeq = r.lastSeq := by rw [hwal]; rfl
  refine ⟨hwal ▸ Shared.Inv.new hintact, hv.start, fun v hp => ?_, hv.later, stored, base,
    segs ++ [current], [], ?_, ?_, fun v hv => ?_, fun v hv => by cases hv⟩
  · rw [hr]
    exact (hv.older v hp).trans hopened
  · rw [hsplit]
    simp
  · rw [hstate]
    exact hl.rotate (fun v => Iff.rfl) _
  · rw [hr]
    simp only [List.flatten_append, List.flatten_cons, List.flatten_nil, List.append_nil,
      ← List.append_assoc] at hv
    rcases List.mem_append.mp hv with hv | hv
    · exact (hold v hv).trans hopened
    · rcases hcurrent v hv with hv | hv
      · exact (hlog.seq_bounds hv).2.trans hlast
      · exact hv.trans hopened

/-- A step that adds nothing to the history. -/
theorem Visible.congr (hv : Visible e h past) (hwal : e'.wal = e.wal) (hstate : e'.state = e.state)
    (hstart : h'.start = h.start) (hinserted : h'.inserted = h.inserted) :
    Visible e' h' past where
  wal := hwal ▸ hv.wal
  start := hstart ▸ hv.start
  older := hwal ▸ hv.older
  later := hinserted ▸ hv.later
  layers := by
    rw [hinserted, hwal, hstate]
    exact hv.layers

/-- **Every step of a session keeps what it can see**, whatever fails. -/
theorem Visible.step (hv : Visible e h past) (hi : Files dir e) {action : Action}
    (hm : Engine.Moves dir e action dir' e') : Visible e' (h.observe action e e') past := by
  cases hm with
  | write _ _ hwal | sync _ _ hwal | wal _ hwal =>
    refine Visible.walStep ?_ hwal rfl rfl
    exact hv.congr rfl rfl rfl rfl
  | @insert client entry wal hthread hwal =>
    have hinserted : ∀ e', (h.observe (.insert client) e e').inserted = h.inserted ++ [entry] :=
      fun e' => by simp only [History.observe, hthread]
    refine Visible.walStep (hv.insert hthread ?_ (hinserted _)) hwal rfl rfl
    rfl
  | rotateSwap _ hrecover =>
    refine Visible.rotateSwap ?_ hrecover rfl rfl
    exact hv.congr rfl rfl rfl rfl
  | @publish slot job next hpc _ =>
    obtain ⟨stored, base, segs, current, hsplit, hl, hold, hcurrent⟩ := hv.layers
    refine ⟨hv.wal, hv.start, hv.older, hv.later, ?_⟩
    rcases hl.publish hi hpc with ⟨f, seg, rest, -, rfl, hl'⟩ | ⟨-, hl'⟩
    · rw [List.flatten_cons, ← List.append_assoc] at hsplit hold
      exact ⟨_, _, _, _, hsplit, hl', hold, hcurrent⟩
    · exact ⟨_, _, _, _, hsplit, hl', hold, hcurrent⟩
  | _ => exact hv.congr rfl rfl rfl rfl

/-- **A session on a directory that an orderly run left** starts with what the directory has. -/
theorem Rests.visible {gone disk : List Entry} {m : ℕ} (hr : Rests dir h past gone disk m)
    {config : Config} (ho : OpenedFrom dir config dir' e) :
    Visible e (History.fresh e.get) (gone ++ dir.allRecords) := by
  obtain ⟨r, heq, ⟨lastSeq, hrecover⟩, -, hbase, hall, -⟩ := ho.fresh
  have hwal : e.wal = Shared.new config.sync r := by rw [heq]; rfl
  have hopened : e.wal.opened.lastSeq = r.lastSeq := by rw [hwal]; rfl
  have hgone : ∀ v ∈ gone, v.seq ≤ r.lastSeq := fun v hv =>
    ((ho.represents hr.stores).2 v (hr.spans.all v hv)).trans hbase
  have holder : ∀ v ∈ gone ++ dir.allRecords, v.seq ≤ e.wal.opened.lastSeq := fun v hv =>
    hopened ▸ (List.mem_append.mp hv).elim (hgone v) (hall v)
  refine ⟨?_, hr.get ho, holder, fun _ _ _ hu => (by cases hu), disk, gone, [], dir.allRecords,
    ?_, hr.layers ho, fun v hv => ?_, fun v hv => ?_⟩
  · rw [hwal]
    exact Shared.Inv.new (intact_of_recover hrecover)
  · rw [List.flatten_nil, List.append_nil]
    exact List.append_nil _
  · rw [List.flatten_nil, List.append_nil] at hv
    exact holder v (List.mem_append_left _ hv)
  · exact Or.inr (holder v (List.mem_append_right _ hv))

/-- What a store answers right after it was opened, in terms of the last session before. -/
theorem Rests.get_eq_overlay {gone disk : List Entry} {m : ℕ} (hr : Rests dir h past gone disk m)
    {config : Config} (ho : OpenedFrom dir config dir' e) :
    e.get = overlay h.start ((h.session.map Prod.snd).take m) := by
  obtain ⟨-, -, hbefore⟩ := List.pairwise_append.mp hr.ordered
  funext key
  rw [hr.get ho, ← hr.history,
    newest_append fun v hv u hu => hbefore v hv u (List.mem_of_mem_take hu)]
  unfold overlay
  rw [hr.start]
  cases newest ((h.session.map Prod.snd).take m) key <;> rfl

end

end Lsmkv
