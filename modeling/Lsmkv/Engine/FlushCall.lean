import Lsmkv.Engine.Wakeups

/-!
# What a flush promises (`Engine::flush`)

`flush` freezes the active memtable and waits until the queue is empty.  The queue never counts
fewer memtables than there are, so when the call returns there is none left, and the memtable that
is active by then was created after the call began.  What the store answers for a key nobody has
written since comes from the tables (`flush_reaches_tables`), whatever other calls, flushes and
compactions did and whichever of them failed.
-/

namespace Lsmkv

/-- The tables without the memtables. -/
def State.onDisk (s : State) : State := { s with active := Memtable.new, frozen := [] }

/-- A key in no memtable is answered from the tables. -/
theorem State.get_onDisk {s : State} {key : Bytes} (hfrozen : s.frozen = [])
    (hactive : ∀ v ∈ s.active.run.entries, v.key ≠ key) : s.onDisk.get key = s.get key := by
  have hfind : s.active.run.find key = none := Run.find_eq_none_iff.mpr hactive
  have hget : s.active.get key = Memtable.new.get key := by
    rw [Memtable.get, hfind]
    rfl
  rw [State.get, State.get, State.lookups, State.lookups, hget, hfrozen]
  rfl

/-- Mutations of other keys do not change what a map answers. -/
theorem overlay_append_of_ne {κ ν : Type*} [DecidableEq κ] {base : κ → Option ν}
    {first later : List (Version κ ν)} {key : κ} (h : ∀ v ∈ later, v.key ≠ key) :
    overlay base (first ++ later) key = overlay base first key := by
  have hnewest : newest (first ++ later) key = newest first key := by
    induction later using List.reverseRecOn with
    | nil => rw [List.append_nil]
    | append_singleton later v ih =>
      rw [← List.append_assoc, newest_append_singleton, if_neg (h v (by simp))]
      exact ih fun u hu => h u (List.mem_append_left _ hu)
  rw [overlay, overlay, hnewest]

/-- What a step of the store adds to the active memtable, it adds to the history. -/
theorem Engine.Moves.active_subset {dir dir' : Dir} {e e' : Engine} {action : Action}
    (hm : Engine.Moves dir e action dir' e') (h : History) :
    ∃ new, (h.observe action e e').inserted = h.inserted ++ new
      ∧ ∀ v ∈ e'.state.active.run.entries, v ∈ e.state.active.run.entries ∨ v ∈ new := by
  cases hm with
  | @insert client entry wal hthread hwal =>
    refine ⟨[entry], by simp only [History.observe, hthread], fun v hv => ?_⟩
    exact (Memtable.mem_insert hv).symm.imp_right fun h => List.mem_singleton.mpr h
  | rotateSwap => exact ⟨[], (List.append_nil _).symm, fun v hv => (by cases hv)⟩
  | @publish slot job next hpc =>
    refine ⟨[], (List.append_nil _).symm, fun v hv => Or.inl ?_⟩
    have hactive : (job.target.publish job.outputs e.state).active = e.state.active := by
      cases job.target <;> rfl
    rwa [← hactive]
  | _ => exact ⟨[], (List.append_nil _).symm, fun v hv => Or.inl hv⟩

namespace Monitor

variable {m m' m₀ : Monitor} {id : ℕ}

/-- A caller in `rotate` stays there until the memtable is new or the rotation has failed. -/
theorem Moves.caller_of_rotating {action : MonitorAction} (h : m.Moves action m') {flush : Bool}
    (hid : m.callers id = .rotating flush) : m'.callers id = .rotating flush
      ∨ m'.callers id = .outside ∨ m'.engine.state.active = Memtable.new := by
  -- another caller moves
  have hother : ∀ {m'' : Monitor} {caller : ℕ} {pc : CallerPc}, m''.callers = m.callers →
      caller ≠ id → (m''.setCaller caller pc).callers id = .rotating flush := by
    intro m'' caller pc hcallers hne
    rw [Monitor.setCaller, hcallers]
    exact (Function.update_of_ne hne.symm _ _).trans hid
  have hne : ∀ {caller : ℕ} {pc : CallerPc}, m.callers caller = pc → pc ≠ .rotating flush →
      caller ≠ id := by
    rintro caller pc hpc hne rfl
    exact hne (hpc.symm.trans hid)
  have hactor : ∀ {m'' : Monitor} {actor : Actor} {flusher : FlusherPc} {caller : CallerPc},
      m''.callers = m.callers → m.inCompactAll actor = true →
      (m''.moveActor flusher caller actor).callers id = .rotating flush := by
    intro m'' actor flusher caller hcallers hall
    cases actor with
    | flusher => exact hcallers ▸ hid
    | caller id' =>
      have hpc : m.callers id' = .compacting := of_decide_eq_true hall
      exact hother hcallers (hne hpc (by simp))
    | dropper => cases hall
  have hplanned : ∀ {m'' : Monitor} {actor : Actor}, m''.callers = m.callers →
      m.inCompactAll actor = true → (m''.planned actor).callers id = .rotating flush := by
    intro m'' actor hcallers hall
    unfold Monitor.planned
    split_ifs
    · exact hactor hcallers hall
    · exact hcallers ▸ hid
  cases h with
  | rotate _ hcaller => exact Or.inl (hother rfl (hne hcaller (by simp)))
  | enter _ hcaller | compact _ hcaller => exact Or.inl (hother rfl (hne hcaller (by simp)))
  | error hcaller | noError hcaller | checked hcaller | wait hcaller | wakeCaller hcaller =>
    exact Or.inl (hother rfl (hne hcaller (by simp)))
  | rotateSwap _ hm =>
    cases hm
    exact Or.inr (Or.inr rfl)
  | @rotateFail caller flush' dir e hcaller hm =>
    by_cases hsame : caller = id
    · subst hsame
      exact Or.inr (Or.inl (Function.update_self _ _ _))
    · exact Or.inl (hother rfl hsame)
  | plan hall => exact Or.inl (hplanned rfl hall)
  | find hall => exact Or.inl (hplanned rfl (compacting_of_works hall))
  | markMerged hall => exact Or.inl (hactor rfl (compacting_of_works hall))
  | failCompact hall => exact Or.inl (hactor rfl (compacting_of_works hall))
  | @notifyAll actor hnotifies =>
    have hnotified : (m.notified actor).callers id = .rotating flush := by
      cases actor with
      | flusher =>
        rcases flusher_of_notifies hnotifies with hpc | hpc | hpc <;>
          simp only [notified, hpc, hid]
      | caller id' =>
        rcases caller_of_notifies hnotifies with ⟨flush', hpc⟩ | hpc
        · have hcaller := hne hpc (by simp)
          cases flush' <;> simp only [notified, hpc] <;> exact hother rfl hcaller
        · simp only [notified, hpc]
          exact hother rfl (hne hpc (by simp))
      | dropper => exact hid
    refine Or.inl ?_
    change ((m.notified actor).callers id).wake = _
    rw [hnotified]
    rfl
  | _ => exact Or.inl hid

/-- What is known of a store whose past was orderly. -/
structure Seen (m : Monitor) : Prop where
  files : Files m.dir m.engine
  counted : m.engine.state.frozen.length ≤ m.engine.pending
  visible : ∃ past, Visible m.engine m.history past

theorem Seen.step (hs : m.Seen) {action : MonitorAction} (h : m.Moves action m') : m'.Seen where
  files := h.invariant (P := fun dir e _ => Files dir e)
    (fun _ hbelow hfiles => hfiles.step hbelow.moves) hs.files
  counted := h.invariant (P := fun _ e _ => e.state.frozen.length ≤ e.pending)
    (fun _ hbelow hcounted => hbelow.moves.counted hcounted) hs.counted
  visible := h.invariant (P := fun _ e history => ∃ past, Visible e history past)
    (fun _ hbelow hvisible => hvisible.imp fun _ hv => hv.step hs.files hbelow.moves) hs.visible

/-- What is known in a call of `flush` that began in `m₀`: once it has been swapped, the active
memtable holds nothing older. -/
structure Since (m₀ : Monitor) (id : ℕ) (m : Monitor) : Prop extends m.Seen where
  start : m.history.start = m₀.history.start
  inserted : ∃ later, m.history.inserted = m₀.history.inserted ++ later
    ∧ (m.callers id = .outside ∨ (∃ flush, m.callers id = .rotating flush)
      ∨ ∀ v ∈ m.engine.state.active.run.entries, v ∈ later)

theorem Since.step (hs : Since m₀ id m) (hid : m.callers id ≠ .outside) {action : MonitorAction}
    (h : m.Moves action m') : Since m₀ id m' := by
  obtain ⟨later, hinserted, hactive⟩ := hs.inserted
  obtain ⟨new, hnew, hsubset⟩ : ∃ new, m'.history.inserted = m.history.inserted ++ new
      ∧ ∀ v ∈ m'.engine.state.active.run.entries,
        v ∈ m.engine.state.active.run.entries ∨ v ∈ new := by
    rcases h.below with hworld | ⟨below, hbelow⟩
    · obtain ⟨-, hengine, hhistory⟩ := World.mk.inj hworld
      rw [hhistory, Option.some.inj hengine]
      exact ⟨[], (List.append_nil _).symm, fun v hv => Or.inl hv⟩
    · rw [hbelow.history]
      exact hbelow.moves.active_subset m.history
  refine ⟨hs.toSeen.step h, ?_, later ++ new, ?_, ?_⟩
  · refine h.invariant (P := fun _ _ history => history.start = m₀.history.start) ?_ hs.start
    exact fun _ _ hstart => hstart
  · rw [hnew, hinserted, List.append_assoc]
  · rcases hactive with houtside | ⟨flush, hrotating⟩ | hlater
    · exact absurd houtside hid
    · rcases h.caller_of_rotating hrotating with hstays | houtside | hfresh
      · exact Or.inr (Or.inl ⟨flush, hstays⟩)
      · exact Or.inl houtside
      · refine Or.inr (Or.inr fun v hv => ?_)
        rw [hfresh] at hv
        cases hv
    · exact Or.inr (Or.inr fun v hv => List.mem_append.mpr ((hsubset v hv).imp_left (hlater v)))

/-- A call of `flush` begins: it has its locks, or there is nothing in the active memtable. -/
theorem Seen.since (hs : m.Seen) (h : m.step (.rotate id 0 true) = some m') : Since m id m' := by
  have hseen := hs.step (moves_of_step h)
  simp only [Monitor.step] at h
  split_ifs at h
  obtain ⟨⟨dir, e⟩, hstep, rfl⟩ := Option.map_eq_some_iff.mp h
  refine ⟨hseen, rfl, [], (List.append_nil _).symm, Or.inr ?_⟩
  simp only [Engine.step, Engine.rotateStep] at hstep
  split_ifs at hstep with hfree hsmall
  · obtain ⟨rfl, rfl⟩ := Prod.mk.inj (Option.some.inj hstep)
    refine Or.inr fun v hv => ?_
    have hempty : m.engine.state.active.run.entries = [] :=
      List.isEmpty_iff.mp (hsmall.resolve_right (Nat.not_lt_zero _))
    exact absurd (hempty ▸ hv : v ∈ []) (List.not_mem_nil)
  · obtain ⟨rfl, rfl⟩ := Prod.mk.inj (Option.some.inj hstep)
    exact Or.inl ⟨true, Function.update_self _ _ _⟩

/-- A store that was just opened, on what an orderly run left. -/
def OpenedInOrder (m : Monitor) : Prop :=
  ∃ w, Reachable World.step World.Orderly (· = World.initial) w ∧ OpenedOn w m

theorem OpenedInOrder.seen (h : m.OpenedInOrder) : m.Seen := by
  obtain ⟨w, hw, h⟩ := h
  obtain ⟨⟨config, hopened⟩, heq⟩ := h.openedFrom (consistent_of_reachable hw)
  obtain ⟨r, hfresh, -⟩ := hopened.fresh
  have haccounted := World.accounted_of_reachable (fun _ _ => id) hw
  rw [World.Accounted, h.1] at haccounted
  obtain ⟨past, gone, disk, k, hrests⟩ := haccounted
  have hhistory : m.history = History.fresh m.engine.get := congrArg Monitor.history heq
  refine ⟨hopened.files, ?_, ?_⟩
  · rw [hfresh]
    exact le_rfl
  · rw [hhistory]
    exact ⟨_, hrests.visible hopened⟩

/-- **What a flush promises.**  Take a call of `Engine::flush` in a session with any other calls,
flushes and compactions, whatever fails: `m₀` is the state in which it is about to rotate, `m₂` one
in which it is about to return `Ok`.  For every key nobody has inserted in between, the tables alone
answer in `m₂` what the store answered in `m₀`. -/
theorem flush_reaches_tables {m₀ m₁ m₂ : Monitor}
    (hm : Reachable step (fun _ _ => True) OpenedInOrder m₀) {id : ℕ}
    (hcall : m₀.step (.rotate id 0 true) = some m₁) {actions : List MonitorAction}
    (hrun : run step (fun m _ => m.callers id ≠ .outside) m₁ actions = some m₂)
    (hreturns : m₂.callers id = .checking ∧ m₂.engine.pending = 0) {key : Bytes}
    (hkey : ∀ v ∈ m₂.history.inserted.drop m₀.history.inserted.length, v.key ≠ key) :
    m₂.engine.state.onDisk.get key = m₀.engine.get key := by
  have hseen : m₀.Seen := hm.invariant (fun _ h => h.seen) fun _ _ _ _ hs _ h =>
    hs.step (moves_of_step h)
  have hsince : Since m₀ id m₂ := run_invariant (fun m action m' hs hid h =>
    hs.step (of_decide_eq_true hid) (moves_of_step h)) (hseen.since hcall) hrun
  obtain ⟨later, hinserted, hactive⟩ := hsince.inserted
  have hlater : ∀ v ∈ later, v.key ≠ key := by
    rwa [hinserted, List.drop_left] at hkey
  have hfrozen : m₂.engine.state.frozen = [] := by
    have := hsince.counted
    rw [hreturns.2] at this
    exact List.length_eq_zero_iff.mp (Nat.le_zero.mp this)
  have hmemtable : ∀ v ∈ m₂.engine.state.active.run.entries, v.key ≠ key := by
    rcases hactive with houtside | ⟨flush, hrotating⟩ | hactive
    · cases hreturns.1.symm.trans houtside
    · cases hreturns.1.symm.trans hrotating
    · exact fun v hv => hlater v (hactive v hv)
  obtain ⟨past, hv⟩ := hseen.visible
  obtain ⟨past', hv'⟩ := hsince.visible
  calc m₂.engine.state.onDisk.get key
      = m₂.engine.get key := State.get_onDisk hfrozen hmemtable
    _ = overlay m₂.history.start m₂.history.inserted key := congrFun (hv'.get hsince.files) key
    _ = overlay m₀.history.start m₀.history.inserted key := by
      rw [hsince.start, hinserted, overlay_append_of_ne hlater]
    _ = m₀.engine.get key := (congrFun (hv.get hseen.files) key).symm

/-- What happens while a caller of `flush` waits: the flush thread writes its table. -/
def flushesTable : List MonitorAction :=
  let table : List Action := [.alloc .flush, .create .flush, .finish .flush]
  List.flatten [[.rotateSwap 1, .notifyAll (.caller 1), .takeError 1, .check 1, .nextTask],
    (table ++ (Action.commit .flush 1).dropLast).map (.task .flusher),
    [.markFlushed, .notifyAll .flusher, .takeError 1]]

/-- A call of `flush` on a new store with one key: where it begins, and where it is about to
return. -/
def flushesOneKey : Option (Monitor × Monitor × Monitor) :=
  (start ⟨.always, 100, 4, 10⟩).bind fun m =>
    (run step (fun _ _ => true) m ((Action.alwaysWrite 1 [1] (some [7])).map .store)).bind fun m₀ =>
      (m₀.step (.rotate 1 0 true)).bind fun m₁ =>
        (run step (fun m _ => m.callers 1 ≠ .outside) m₁ flushesTable).map fun m₂ => (m₀, m₁, m₂)

theorem flush_reaches_tables_oneKey : ∃ m₀ m₂ : Monitor, m₀.engine.get [1] = some [7]
    ∧ m₂.callers 1 = .checking ∧ m₂.engine.state.onDisk.get [1] = m₀.engine.get [1] := by
  obtain ⟨p, heq, htest⟩ := Option.map_eq_some_iff.mp (by decide +kernel :
    flushesOneKey.map (fun p => p.1.engine.get [1] = some [7]
      && p.2.2.callers 1 = .checking && p.2.2.engine.pending = 0
      && (p.2.2.history.inserted.drop p.1.history.inserted.length).isEmpty) = some true)
  simp only [Bool.and_eq_true, decide_eq_true_iff, List.isEmpty_iff] at htest
  obtain ⟨⟨⟨hget, hcaller⟩, hpending⟩, hkey⟩ := htest
  obtain ⟨m, hstart, heq⟩ := Option.bind_eq_some_iff.mp heq
  obtain ⟨m₀, hbefore, heq⟩ := Option.bind_eq_some_iff.mp heq
  obtain ⟨m₁, hcall, heq⟩ := Option.bind_eq_some_iff.mp heq
  obtain ⟨m₂, hrun, rfl⟩ := Option.map_eq_some_iff.mp heq
  have hm : Reachable step (fun _ _ => True) OpenedInOrder m₀ := Reachable.of_run
    (fun _ _ _ => trivial) (.start ⟨_, .start rfl, openedOn_of_start hstart⟩) hbefore
  refine ⟨m₀, m₂, hget, hcaller, flush_reaches_tables hm hcall hrun ⟨hcaller, hpending⟩ ?_⟩
  rw [hkey]
  exact fun v hv => absurd hv List.not_mem_nil

end Monitor

end Lsmkv
