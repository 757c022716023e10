import Lsmkv.Engine.Consistent
import Lsmkv.Engine.Layers

/-!
# Lookups in a running store

In a session on an empty directory, `Engine::get` answers with the newest mutation inserted,
whatever the interleaving and whatever operation of a log or a background task fails
(`get_eq_newest`).

A log numbers its records past everything that was handed out before it was opened.  So what the
active memtable took is newer than what a rotation froze, and `Layers` holds with the mutations
inserted so far, in the order of their insertion, cut where the rotations came.
-/

namespace Lsmkv

/-- The layers of the memory hold the mutations inserted, those frozen before the current log was
opened and those in the active memtable since. -/
structure Recency (e : Engine) (inserted : List Entry) : Prop where
  wal : e.wal.Inv
  layers : ∃ stored base segs current, inserted = base ++ segs.flatten ++ current
    ∧ Layers e.state stored base segs current
    ∧ (∀ v ∈ base ++ segs.flatten, v.seq ≤ e.wal.opened.lastSeq)
    ∧ ∀ v ∈ current, v ∈ e.wal.appended

section

variable {dir dir' : Dir} {e e' : Engine} {inserted : List Entry}

/-- A step of a thread in the log. -/
theorem Recency.walStep (hr : Recency e inserted) {label : Wal.Thread × Wal.Event}
    {wal : Wal.Shared}
    (h : e.wal.step label = some wal) (hwal : e'.wal = wal) (hstate : e'.state = e.state) :
    Recency e' inserted := by
  obtain ⟨stored, base, segs, current, hsplit, hl, hold, hcurrent⟩ := hr.layers
  subst hwal
  refine ⟨hr.wal.step h, stored, base, segs, current, hsplit, hstate ▸ hl, fun v hv => ?_,
    fun v hv => (Wal.Shared.step_appended h).subset (hcurrent v hv)⟩
  rw [(Wal.Shared.step_policy h).2]
  exact hold v hv

/-- The mutation of an append that returned is newer than everything frozen. -/
theorem Recency.insert (hr : Recency e inserted) {t : Wal.Thread} {entry : Entry}
    (hthread : e.wal.thread t = .returned entry) :
    Recency { e with state.active := (e.state.active.insert entry).1 } (inserted ++ [entry]) := by
  obtain ⟨stored, base, segs, current, rfl, hl, hold, hcurrent⟩ := hr.layers
  have hreturned : entry ∈ e.wal.returned := hr.wal.fact_of_eq hthread
  have happended := (hr.wal.done entry hreturned).1
  refine ⟨hr.wal, stored, base, segs, current ++ [entry], List.append_assoc _ _ _,
    hl.insert (fun v hv => ?_) (fun v hv hseq => ?_), hold, fun v hv => ?_⟩
  · exact (hold v hv).trans_lt (hr.wal.log.seq_bounds happended).1
  · exact distinct_of_pairwise hr.wal.log.pairwise v (hcurrent v hv) entry happended hseq
  · rcases List.mem_append.mp hv with hv | hv
    · exact hcurrent v hv
    · rw [List.mem_singleton.mp hv]
      exact happended

/-- A rotation opens the next log behind everything numbered so far. -/
theorem Recency.rotateSwap (hr : Recency e inserted) {number : ℕ} {file : Option Bytes}
    {r : Wal.Recovered} (hrecover : Wal.recover number file e.wal.lastSeq = .ok r)
    (hwal : e'.wal = Wal.Shared.new e.config.sync r)
    (hstate : e'.state = { e.state with active := Memtable.new, activeLogs := [number]
                                        frozen := ⟨e.state.active,
                                          e.state.activeLogs⟩ :: e.state.frozen }) :
    Recency e' inserted := by
  obtain ⟨stored, base, segs, current, rfl, hl, hold, hcurrent⟩ := hr.layers
  obtain ⟨-, hintact, -, hlast, -⟩ := Wal.spec_of_recover hrecover
  refine ⟨hwal ▸ Wal.Shared.Inv.new hintact, stored, base, segs ++ [current], [], by simp, ?_, ?_,
    fun v hv => nomatch hv⟩
  · rw [hstate]
    exact hl.rotate (fun v => Iff.rfl) _
  · intro v hv
    have hle : v.seq ≤ e.wal.lastSeq := by
      have hlog := hr.wal.log
      simp only [List.flatten_append, List.flatten_cons, List.flatten_nil, List.append_nil,
        ← List.append_assoc] at hv
      rcases List.mem_append.mp hv with hv | hv
      · exact (hold v hv).trans (hlog.last ▸ Nat.le_add_right _ _)
      · exact (hlog.seq_bounds (hcurrent v hv)).2
    rw [hwal]
    exact hle.trans hlast

/-- **Every step keeps the layers in order**, whatever fails. -/
theorem Recency.step (hi : Files dir e) {h : History} (hr : Recency e h.inserted) {action : Action}
    (hm : Engine.Moves dir e action dir' e') : Recency e' (h.observe action e e').inserted := by
  cases hm with
  | write _ _ hwal | sync _ _ hwal | wal _ hwal => exact hr.walStep hwal rfl rfl
  | @insert client entry wal hthread hwal =>
    have hinserted : (h.observe (.insert client) e
        { e with wal := wal, state.active := (e.state.active.insert entry).1 }).inserted
          = h.inserted ++ [entry] := by
      simp only [History.observe, hthread]
    rw [hinserted]
    exact (hr.insert hthread).walStep hwal rfl rfl
  | rotateSwap _ hrecover => exact hr.rotateSwap hrecover rfl rfl
  | @publish slot job next hpc _ =>
    obtain ⟨stored, base, segs, current, hsplit, hl, hold, hcurrent⟩ := hr.layers
    refine ⟨hr.wal, ?_⟩
    rcases hl.publish hi hpc with ⟨f, seg, rest, -, rfl, hl'⟩ | ⟨-, hl'⟩
    · rw [List.flatten_cons, ← List.append_assoc] at hsplit hold
      exact ⟨_, _, _, _, hsplit, hl', hold, hcurrent⟩
    · exact ⟨_, _, _, _, hsplit, hl', hold, hcurrent⟩
  | _ => exact ⟨hr.wal, hr.layers⟩

end

/-- A store that was just opened in an empty directory. -/
theorem OpenedFrom.recency {config : Config} {dir' : Dir} {e : Engine}
    (h : OpenedFrom Dir.empty config dir' e) : Recency e [] := by
  obtain ⟨r, heq, ⟨lastSeq, hrecover⟩, -, -⟩ := h.fresh
  have hlayers := h.layers Dir.empty_stores (spans_refl _ _) (fun _ hv => nomatch hv)
    (fun _ hv => nomatch hv)
  refine ⟨?_, [], [], [], [], rfl, hlayers, (fun _ hv => nomatch hv), (fun _ hv => nomatch hv)⟩
  rw [heq]
  exact Wal.Shared.Inv.new (Wal.intact_of_recover hrecover)

/-- Whether an action ends a session or belongs to none. -/
def Action.endsSession : Action → Bool
  | .kill _ | .close _ | .openKilled _ _ => true
  | _ => false

/-- A session on a directory that was empty. -/
def World.InSession (w : World) : Prop :=
  match w.engine with
  | none => w.dir = Dir.empty
  | some e => Recency e w.history.inserted

theorem World.InSession.step {w w' : World} {action : Action} (hc : w.Consistent)
    (hi : w.InSession) (haction : action.endsSession = false) (h : w.Moves action w') :
    w'.InSession := by
  unfold World.InSession World.Consistent at *
  cases h with
  | engine hengine hmoves =>
    rw [hengine] at hi hc
    exact hi.step hc.1 hmoves
  | openStore hengine hopen =>
    rw [hengine] at hi hc
    have hopened := openedFrom hc.1 hc.2 hopen
    rw [hi] at hopened
    exact hopened.recency
  | kill | close | openKilled => cases haction

/-- **A lookup answers with the newest mutation.**  In every state of every session on an empty
directory, whatever the interleaving of writers, rotations, flushes and compactions and whatever
operations of them fail, `get` returns the value of the mutation with the highest sequence number
among those inserted for the key, which is `none` if it was a delete, and `none` if there is no
such mutation. -/
theorem get_eq_newest {w : World} {e : Engine}
    (hw : Reachable World.step (fun _ action => action.endsSession = false) (· = World.initial) w)
    (he : w.engine = some e) (key : Bytes) :
    (∀ v ∈ w.history.inserted, v.key = key →
      (∀ u ∈ w.history.inserted, u.key = key → u.seq ≤ v.seq) → e.get key = v.value)
    ∧ ((∀ v ∈ w.history.inserted, v.key ≠ key) → e.get key = none) := by
  have hsession : w.InSession := by
    refine hw.invariant (by rintro _ rfl; exact rfl) fun _ _ _ hreach hi hok h => ?_
    exact hi.step (consistent_of_reachable hreach) hok (World.moves_of_step h)
  have hfiles := files_of_reachable hw he
  rw [World.InSession, he] at hsession
  obtain ⟨stored, base, segs, current, hsplit, hl, -, -⟩ := hsession.layers
  have hget : e.get key = (newest w.history.inserted key).bind Version.value := by
    rw [Engine.get, State.get_eq_head _ _ hfiles.arranged.deep_sorted, hsplit]
    exact hl.represents.value_eq key
  rw [hget]
  constructor
  · intro v hv hkey hmax
    rw [newest_eq_some (hsplit ▸ hl.distinct) hv hkey hmax]
    rfl
  · intro hnone
    rw [newest_eq_none_iff.mpr hnone]
    rfl

theorem get_eq_newest_overwritten : ∃ (w : World) (e : Engine), w.engine = some e
    ∧ w.history.inserted = [⟨[1], 1, some [7]⟩, ⟨[1], 2, none⟩]
    ∧ e.snapshot.files.map FileMeta.number = [3] ∧ e.get [1] = none ∧ e.get [2] = none := by
  obtain ⟨w, e, hw, he, htest⟩ := World.exists_engine_of_run
    (fun _ action => action.endsSession = false) (fun _ _ h => of_decide_eq_true h)
    (by decide +kernel : (run World.step (fun _ action => decide (action.endsSession = false))
      World.initial (flushCompactReopen.take 47)).map (fun w => w.engine.any fun e =>
        w.history.inserted = [⟨[1], 1, some [7]⟩, ⟨[1], 2, none⟩]
          && e.snapshot.files.map FileMeta.number = [3]) = some true)
  simp only [Bool.and_eq_true, decide_eq_true_iff] at htest
  obtain ⟨hinserted, hfiles⟩ := htest
  refine ⟨w, e, he, hinserted, hfiles, ?_, ?_⟩
  · exact (get_eq_newest hw he [1]).1 ⟨[1], 2, none⟩ (by simp [hinserted]) rfl (by
      rw [hinserted]
      decide)
  · exact (get_eq_newest hw he [2]).2 (by rw [hinserted]; decide)

end Lsmkv
