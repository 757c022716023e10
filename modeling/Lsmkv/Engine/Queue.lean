import Lsmkv.Engine.Consistent

/-!
# The flush queue

`queue.pending` is what a caller of `wait_for_flush` waits on.  It is set to the number of frozen
memtables by `rotate` and by `mark_progress`, never counted up or down, so the two agree whenever
the flush thread is between two tasks, provided each flush that has popped its memtable reaches
`mark_progress` (`pending_eq_frozen`).  A flush that fails to remove a log it replaced returns in
between (`pending_drifts`).
-/

namespace Lsmkv

/-- Whether a task is removing what its outputs replaced. -/
def JobPc.isUnlinking : JobPc → Bool
  | .unlinking _ _ => true
  | _ => false

/-- Whether no removal of a replaced log fails in a step. -/
def World.RemovesLogs (w : World) (action : Action) : Prop :=
  match action with
  | .fail .flush => ∀ e, w.engine = some e → (e.jobs .flush).isUnlinking = false
  | _ => True

/-- The queue counts the frozen memtables, but for a flush that is removing its logs. -/
def Engine.QueueAgrees (e : Engine) : Prop :=
  (e.jobs .flush).isUnlinking = false → e.pending = e.state.frozen.length

/-- **Every step keeps the count**, unless a flush fails while it removes its logs. -/
theorem Engine.QueueAgrees.step {dir dir' : Dir} {e e' : Engine} (hq : e.QueueAgrees)
    (hi : Files dir e) {action : Action}
    (hfail : action = .fail .flush → (e.jobs .flush).isUnlinking = false)
    (hm : Engine.Moves dir e action dir' e') : e'.QueueAgrees := by
  -- a task that moves on short of its publication
  have htask : ∀ {slot : Slot} {pc : JobPc}, e'.jobs = (e.setJob slot pc).jobs →
      e'.pending = e.pending → e'.state.frozen = e.state.frozen →
      (slot = .flush → (e.jobs slot).isUnlinking = true → pc.isUnlinking = true) →
      e'.QueueAgrees := by
    intro slot pc hjobs hpending hfrozen hunlinking hidle
    rw [hpending, hfrozen]
    refine hq ?_
    rw [hjobs] at hidle
    cases slot with
    | flush =>
      rw [Engine.setJob_self] at hidle
      exact Bool.eq_false_iff.mpr fun h => by rw [hunlinking rfl h] at hidle; cases hidle
    | compact => rwa [e.setJob_of_ne pc (by simp)] at hidle
  have hside : ∀ {slot : Slot}, action.slot = some slot → Engine.JobSide slot e e' := hm.jobSide
  cases hm with
  | write | sync | wal | insert | leave | rotateNot | rotate | rotateWrite | rotateFail | oldWal
  | dropLog | planNot => exact hq
  | rotateSwap => exact fun _ => rfl
  | take hpc | plan hpc | abandon hpc | find hpc | alloc hpc | create hpc | finish hpc | rename hpc
  | openOutput hpc | ready hpc | lock hpc | createManifest hpc | writeManifest hpc
  | renameManifest hpc => exact htask rfl rfl rfl fun _ h => by rw [hpc] at h; cases h
  | unlinkLog | unlinkTable => exact htask rfl rfl rfl fun _ _ => rfl
  | done => exact fun _ => rfl
  | @publish slot job next hpc =>
    intro hidle
    cases slot with
    | flush =>
      change ((e.setJob .flush (.unlinking job.target job.target.unlinks)).jobs .flush).isUnlinking
        = false at hidle
      rw [Engine.setJob_self] at hidle
      cases hidle
    | compact =>
      have hok := hi.jobs .compact
      rw [hpc] at hok
      rw [(hside rfl).jobs .flush (by simp)] at hidle
      cases htarget : job.target with
      | flush f => cases (hok.1.flush_output hok.2.1 htarget).1
      | compact snapshot plan => exact hq hidle
  | @fail slot =>
    refine htask rfl rfl rfl fun hslot h => ?_
    subst hslot
    cases h.symm.trans (hfail rfl)

/-- The queue of a store that is open. -/
def World.QueueAgrees (w : World) : Prop := ∀ e, w.engine = some e → e.QueueAgrees

theorem queueAgrees_of_reachable {w : World}
    (hw : Reachable World.step World.RemovesLogs (· = World.initial) w) : w.QueueAgrees := by
  refine World.engine_invariant (fun _ e _ => e.QueueAgrees) (fun _ _ _ _ hopened => ?_)
    (fun w e _ _ _ hreach he hq hok hmoves => ?_) hw
  · obtain ⟨r, heq, -⟩ := hopened.fresh
    rw [heq]
    exact fun _ => rfl
  · refine hq.step (files_of_reachable hreach he) (fun haction => ?_) hmoves
    subst haction
    exact hok _ he

/-- **When the queue counts the frozen memtables.**  In every run in which no removal of a replaced
log fails, whatever else fails and wherever the process is killed, the count is right in every state
in which the flush thread is between two tasks, and so a caller of `wait_for_flush` waits only while
there is a frozen memtable. -/
theorem pending_eq_frozen {w : World}
    (hw : Reachable World.step World.RemovesLogs (· = World.initial) w) {e : Engine}
    (he : w.engine = some e) (hidle : e.jobs .flush = .idle) :
    e.pending = e.state.frozen.length ∧ (0 < e.pending → e.state.frozen ≠ []) := by
  have hpending : e.pending = e.state.frozen.length :=
    queueAgrees_of_reachable hw e he (by rw [hidle]; rfl)
  refine ⟨hpending, fun hpos hnil => ?_⟩
  rw [hpending, hnil] at hpos
  exact lt_irrefl 0 hpos

/-- A flush that fails once its manifest is in place. -/
def failedBeforePublish : List Action :=
  List.flatten [[.openStore ⟨.always, 100, 4, 10⟩], Action.alwaysWrite 1 [1] (some [7]),
    Action.rotateAndTake 1, (Action.commit .flush 1).take 7, [.fail .flush]]

/-- A check of `World.RemovesLogs`. -/
def World.removesLogs (w : World) : Action → Bool
  | .fail .flush => w.engine.all fun e => !(e.jobs .flush).isUnlinking
  | _ => true

theorem World.removesLogs_sound (w : World) (action : Action) (h : w.removesLogs action = true) :
    w.RemovesLogs action := by
  unfold World.RemovesLogs
  split
  · intro e he
    simpa [World.removesLogs, he] using h
  · trivial

theorem pending_eq_frozen_failedBeforePublish : ∃ (w : World) (e : Engine), w.engine = some e
    ∧ e.jobs .flush = .idle ∧ e.pending = 1 ∧ e.state.frozen.length = 1 := by
  obtain ⟨w, e, hw, he, htest⟩ := World.exists_engine_of_run World.RemovesLogs
    World.removesLogs_sound (by decide +kernel : (run World.step World.removesLogs World.initial
      failedBeforePublish).map (fun w => w.engine.any fun e => e.atRest && e.pending = 1)
        = some true)
  simp only [Bool.and_eq_true, decide_eq_true_iff] at htest
  obtain ⟨hrest, hpending⟩ := htest
  have hidle := (Engine.atRest_iff.mp hrest).2.2.2.1 .flush
  exact ⟨w, e, he, hidle, hpending, (pending_eq_frozen hw he hidle).1.symm.trans hpending⟩

/-- A flush that fails to remove the log it replaced. -/
def failedBeforeUnlink : List Action :=
  List.flatten [[.openStore ⟨.always, 100, 4, 10⟩], Action.alwaysWrite 1 [1] (some [7]),
    Action.rotateAndTake 1, (Action.commit .flush 1).take 8, [.fail .flush]]

/-- **The queue can count a memtable that is gone.**  The flush that published its table returns
before `mark_progress`, and a caller of `wait_for_flush` waits for nothing. -/
theorem pending_drifts :
    ¬ ∀ w, Reachable World.step (fun _ action => action.onlyTasksFail = true)
        (· = World.initial) w → ∀ e, w.engine = some e → e.jobs .flush = .idle →
      e.jobs .compact = .idle → e.pending = e.state.frozen.length := by
  intro hall
  obtain ⟨w, e, hw, he, htest⟩ := World.exists_engine_of_run
    (fun _ action => action.onlyTasksFail = true) (fun _ _ h => h)
    (by decide +kernel : (run World.step (fun _ action => action.onlyTasksFail) World.initial
      failedBeforeUnlink).map (fun w => w.engine.any fun e => e.atRest && e.pending = 1
        && e.state.frozen.length = 0) = some true)
  simp only [Bool.and_eq_true, decide_eq_true_iff] at htest
  obtain ⟨⟨hrest, hpending⟩, hfrozen⟩ := htest
  have hidle := (Engine.atRest_iff.mp hrest).2.2.2.1
  have := hall w hw e he (hidle .flush) (hidle .compact)
  omega

end Lsmkv
