import Lsmkv.Engine.Monitor

/-!
# Nobody sleeps through a notification

A thread that changes what sleepers wait for notifies after it has let go of the queue, and a
sleeper looks at the queue before it lets go of it to sleep.  So at any time what a sleeper waits
for has not come about, or a notification is still on its way (`Sleepers`).

* `no_lost_wakeup`: unless a notification is on its way, the flush thread sleeps only if there is
  nothing to do, it does not sleep while somebody waits for it, and it does not sleep through the
  drop of the engine.
-/

namespace Lsmkv

/-! ### What a step of the store does to the queue -/

section

variable {dir dir' : Dir} {e e' : Engine} {action : Action}

/-- The queue never counts fewer memtables than there are. -/
theorem Engine.Moves.counted (hm : Engine.Moves dir e action dir' e')
    (h : e.state.frozen.length ≤ e.pending) : e'.state.frozen.length ≤ e'.pending := by
  cases hm with
  | rotateSwap | done => exact le_rfl
  | @publish slot job next hpc =>
    refine le_trans ?_ h
    change (job.target.publish job.outputs e.state).frozen.length ≤ _
    cases job.target with
    | flush => exact (List.dropLast_sublist _).length_le
    | compact => exact le_rfl
  | _ => exact h

/-- Only a rotation freezes. -/
theorem Engine.Moves.frozen_nil (hm : Engine.Moves dir e action dir' e')
    (haction : action ≠ .rotateSwap) (h : e.state.frozen = []) : e'.state.frozen = [] := by
  cases hm with
  | rotateSwap => exact absurd rfl haction
  | @publish slot job next hpc =>
    refine List.eq_nil_iff_forall_not_mem.mpr fun f hf => ?_
    have := Target.mem_frozen_of_publish hf
    rw [h] at this
    cases this
  | _ => exact h

/-- Only `rotate` and `mark_progress` set the count. -/
theorem Engine.Moves.pending_eq (hm : Engine.Moves dir e action dir' e')
    (hswap : action ≠ .rotateSwap) (hdone : ∀ slot, action ≠ .done slot) :
    e'.pending = e.pending := by
  cases hm with
  | rotateSwap => exact absurd rfl hswap
  | done => exact absurd rfl (hdone _)
  | _ => rfl

/-- A step that is not one of the flush leaves the flush where it is. -/
theorem Engine.Moves.flush_eq (hm : Engine.Moves dir e action dir' e')
    (hslot : action.slot ≠ some .flush) : e'.jobs .flush = e.jobs .flush := by
  cases haction : action.slot with
  | none => rw [(hm.logSide haction).jobs]
  | some slot =>
    refine (hm.jobSide haction).jobs .flush ?_
    rintro rfl
    exact hslot haction

end

namespace Monitor

variable {m m' : Monitor}

/-! ### Where the threads stand -/

/-- Whether a thread is in `compact_once`, once it holds `compacting`. -/
def compacts (m : Monitor) : Actor → Bool
  | .flusher => m.flusher = .compacting || m.flusher = .merged
  | .caller id => m.callers id = .compacting || m.callers id = .merged
  | .dropper => false

/-- What the threads know about each other. -/
structure Threads (m : Monitor) : Prop where
  held : ∀ actor, m.compactor = some actor → m.compacts actor = true
  inside : ∀ id, m.callers id ≠ .outside → id ∈ m.inside
  dropped : m.drop ≠ .running → ∀ id, m.callers id = .outside
  shutdown : m.shutdown = true ↔ m.drop ≠ .running
  exited : m.flusher = .exited → m.shutdown = true

theorem Threads.congr (ht : m.Threads) (hcompactor : m'.compactor = m.compactor)
    (hflusher : m'.flusher = m.flusher) (hcallers : m'.callers = m.callers)
    (hinside : m'.inside = m.inside) (hdrop : m'.drop = m.drop)
    (hshutdown : m'.shutdown = m.shutdown) : m'.Threads where
  held actor h := by
    have := ht.held actor (hcompactor ▸ h)
    unfold compacts at this ⊢
    rwa [hflusher, hcallers]
  inside := by
    rw [hcallers, hinside]
    exact ht.inside
  dropped := by
    rw [hdrop, hcallers]
    exact ht.dropped
  shutdown := by
    rw [hshutdown, hdrop]
    exact ht.shutdown
  exited := by
    rw [hflusher, hshutdown]
    exact ht.exited

/-- A caller that is inside, or comes in while nobody drops the engine, moves. -/
theorem Threads.setCaller (ht : m.Threads) {id : ℕ} {pc : CallerPc}
    (hrunning : m.drop = .running ∨ m.callers id ≠ .outside)
    (hcompactor : m.compactor = some (.caller id) → pc = .compacting ∨ pc = .merged) :
    (m.setCaller id pc).Threads where
  held actor h := by
    have hheld := ht.held actor h
    cases actor with
    | flusher | dropper => exact hheld
    | caller id' =>
      by_cases hid : id' = id
      · subst hid
        simpa [compacts, Monitor.setCaller] using hcompactor h
      · simpa [compacts, Monitor.setCaller, Function.update_of_ne hid] using hheld
  inside id' h := by
    by_cases hid : id' = id
    · subst hid
      have hpc : pc ≠ .outside := by simpa [Monitor.setCaller] using h
      simp [Monitor.setCaller, hpc]
    · have hmem := ht.inside id' (by simpa [Monitor.setCaller, Function.update_of_ne hid] using h)
      have herase := (List.mem_erase_of_ne hid).mpr hmem
      unfold Monitor.setCaller
      dsimp only
      split_ifs
      · exact herase
      · exact List.mem_cons_of_mem _ herase
  dropped h id' := by
    rcases hrunning with hrunning | hinside
    · exact absurd hrunning h
    · exact absurd (ht.dropped h id) hinside
  shutdown := ht.shutdown
  exited := ht.exited

/-- The flush thread moves. -/
theorem Threads.setFlusher (ht : m.Threads) {pc : FlusherPc}
    (hcompactor : m.compactor = some .flusher → pc = .compacting ∨ pc = .merged)
    (hexited : pc = .exited → m.shutdown = true) : Threads { m with flusher := pc } where
  held actor h := by
    cases actor with
    | flusher => simpa [compacts] using hcompactor h
    | caller | dropper => exact ht.held _ h
  inside := ht.inside
  dropped := ht.dropped
  shutdown := ht.shutdown
  exited := hexited

/-- `compacting` is let go of. -/
theorem Threads.release (ht : m.Threads) : Threads { m with compactor := none } :=
  { ht with held := fun _ h => by cases h }

theorem Threads.wakeAll (ht : m.Threads) : m.wakeAll.Threads where
  held actor h := by
    have hheld := ht.held actor h
    cases actor with
    | flusher =>
      unfold compacts Monitor.wakeAll FlusherPc.wake at *
      cases hpc : m.flusher <;> simp_all
    | caller id =>
      unfold compacts Monitor.wakeAll CallerPc.wake at *
      cases hpc : m.callers id <;> simp_all
    | dropper => exact hheld
  inside id h := by
    refine ht.inside id fun houtside => h ?_
    unfold Monitor.wakeAll
    dsimp only
    rw [houtside]
    rfl
  dropped h id := by
    unfold Monitor.wakeAll
    dsimp only
    rw [ht.dropped h id]
    rfl
  shutdown := ht.shutdown
  exited h := by
    refine ht.exited ?_
    unfold Monitor.wakeAll FlusherPc.wake at h
    cases hpc : m.flusher <;> simp_all

/-- A caller outside `compact_once` does not hold `compacting`. -/
theorem Threads.caller_free (ht : m.Threads) {id : ℕ} (h : m.compacts (.caller id) = false) :
    m.compactor ≠ some (.caller id) := fun hcompactor => by
  rw [ht.held _ hcompactor] at h
  cases h

/-- The flush thread outside `compact_once` does not hold `compacting`. -/
theorem Threads.flusher_free (ht : m.Threads) (h : m.compacts .flusher = false) :
    m.compactor ≠ some .flusher := fun hcompactor => by
  rw [ht.held _ hcompactor] at h
  cases h

/-- A caller outside `compact_once` moves. -/
theorem Threads.move (ht : m.Threads) {id : ℕ} {pc : CallerPc}
    (hrunning : m.drop = .running ∨ m.callers id ≠ .outside)
    (hfree : m.compacts (.caller id) = false) : (m.setCaller id pc).Threads :=
  ht.setCaller hrunning fun h => absurd h (ht.caller_free hfree)

/-- The flush thread outside `compact_once` moves. -/
theorem Threads.turn (ht : m.Threads) {pc : FlusherPc} (hfree : m.compacts .flusher = false)
    (hexited : pc = .exited → m.shutdown = true) : Threads { m with flusher := pc } :=
  ht.setFlusher (fun h => absurd h (ht.flusher_free hfree)) hexited

/-! ### Who moves -/

/-- The calls are not steps of a task. -/
theorem slot_of_isCall {action : Action} (h : action.isCall = true) : action.slot = none := by
  cases action with
  | write | sync | wal | insert | leave | rotateWrite | oldWal | dropLog => rfl
  | _ => cases h

theorem flusher_of_looks {action : MonitorAction} (h : m.looks action = true) :
    (∃ retry, m.flusher = .looking retry) ∨ m.flusher = .dozing := by
  unfold looks at h
  split at h
  · rcases (Bool.or_eq_true _ _).mp h with h | h
    · exact Or.inl ⟨true, of_decide_eq_true h⟩
    · exact Or.inl ⟨false, of_decide_eq_true h⟩
  · exact Or.inr (of_decide_eq_true h)
  · cases h

theorem compacting_of_works {actor : Actor} (h : m.works actor .compact = true) :
    m.inCompactAll actor = true := (Bool.and_eq_true_iff.mp h).2

theorem flushing_of_works {actor : Actor} (h : m.works actor .flush = true) :
    m.flusher = .flushing := of_decide_eq_true (Bool.and_eq_true_iff.mp h).2

theorem flusher_of_notifies (h : m.notifies .flusher = true) :
    m.flusher = .flushed ∨ m.flusher = .merged ∨ m.flusher = .reported := by
  simpa only [notifies, Bool.or_eq_true, decide_eq_true_iff, or_assoc] using h

theorem caller_of_notifies {id : ℕ} (h : m.notifies (.caller id) = true) :
    (∃ flush, m.callers id = .rotated flush) ∨ m.callers id = .merged := by
  unfold notifies at h
  dsimp only at h
  split at h
  · exact Or.inl ⟨_, ‹_›⟩
  · exact Or.inr ‹_›
  · cases h

/-- A thread in `compact_all` goes on without `compacting`. -/
theorem Threads.leave (ht : m.Threads) {actor : Actor} (h : m.inCompactAll actor = true)
    {flusher : FlusherPc} (hflusher : flusher ≠ .exited) (caller : CallerPc) :
    Threads { m.moveActor flusher caller actor with compactor := none } := by
  cases actor with
  | flusher => exact ht.release.setFlusher (fun h => by cases h) fun h => absurd h hflusher
  | caller id =>
    have hcaller : m.callers id = .compacting := of_decide_eq_true h
    exact ht.release.setCaller (Or.inr (by simp [hcaller])) fun h => by cases h
  | dropper => cases h

theorem Threads.planned (ht : m.Threads) {actor : Actor} (h : m.inCompactAll actor = true) :
    (m.planned actor).Threads := by
  unfold Monitor.planned
  split_ifs
  · exact ht.leave h (by simp) _
  · refine { ht with held := fun actor' h' => ?_ }
    obtain rfl := Option.some.inj h'
    cases actor with
    | flusher | caller => simp_all [compacts, inCompactAll]
    | dropper => cases h

theorem Threads.merged (ht : m.Threads) {actor : Actor} (h : m.inCompactAll actor = true) :
    (m.merged actor).Threads := by
  cases actor with
  | flusher => exact ht.setFlusher (fun _ => Or.inr rfl) (by simp)
  | caller id =>
    have hcaller : m.callers id = .compacting := of_decide_eq_true h
    exact ht.setCaller (Or.inr (by simp [hcaller])) fun _ => Or.inr rfl
  | dropper => cases h

theorem Threads.notified (ht : m.Threads) {actor : Actor} (h : m.notifies actor = true) :
    (m.notified actor).Threads := by
  cases actor with
  | flusher =>
    rcases flusher_of_notifies h with hpc | hpc | hpc <;> simp only [Monitor.notified, hpc]
    · exact ht.turn (by simp [compacts, hpc]) (by simp)
    · exact ht.release.setFlusher (fun h => by cases h) (by simp)
    · exact ht.turn (by simp [compacts, hpc]) (by simp)
  | caller id =>
    rcases caller_of_notifies h with ⟨flush, hpc⟩ | hpc <;> simp only [Monitor.notified, hpc]
    · cases flush <;> exact ht.move (Or.inr (by simp [hpc])) (by simp [compacts, hpc])
    · exact ht.release.setCaller (Or.inr (by simp [hpc])) fun h => by cases h
  | dropper =>
    have hstopping : m.drop = .stopping := of_decide_eq_true h
    refine { ht with dropped := fun _ => ht.dropped (by rw [hstopping]; simp), shutdown := ?_ }
    change m.shutdown = true ↔ DropPc.joining ≠ .running
    rw [ht.shutdown, hstopping]
    simp

/-- **Every step keeps what the threads know about each other.** -/
theorem Threads.step (ht : m.Threads) {action : MonitorAction} (h : m.Moves action m') :
    m'.Threads := by
  have hlooks : ∀ {action}, m.looks action = true → m.compacts .flusher = false := by
    intro action hlooks
    rcases flusher_of_looks hlooks with ⟨retry, hpc⟩ | hpc <;> simp [compacts, hpc]
  have hflushing : m.works .flusher .flush = true → m.compacts .flusher = false := fun hworks => by
    simp [compacts, flushing_of_works hworks]
  have hadvance : ∀ {action dir e}, (m.advance action dir e).Threads :=
    ht.congr rfl rfl rfl rfl rfl rfl
  cases h with
  | store | task => exact hadvance
  | refuse => exact ht.congr rfl rfl rfl rfl rfl rfl
  | @rotate caller _ _ dir e hdrop hcaller =>
    have hfree : m.compacts (.caller caller) = false := by simp [compacts, hcaller]
    exact Threads.move hadvance (Or.inl hdrop) hfree
  | @rotateSwap caller _ _ _ hcaller | @rotateFail caller _ _ _ hcaller =>
    have hfree : m.compacts (.caller caller) = false := by simp [compacts, hcaller]
    have hinside : m.callers caller ≠ .outside := by simp [hcaller]
    exact Threads.move hadvance (Or.inr hinside) hfree
  | enter hdrop hcaller | compact hdrop hcaller =>
    exact ht.move (Or.inl hdrop) (by simp [compacts, hcaller])
  | @error caller hcaller | @noError caller hcaller | @checked caller hcaller
  | @wait caller hcaller =>
    have hfree : m.compacts (.caller caller) = false := by simp [compacts, hcaller]
    have hinside : m.callers caller ≠ .outside := by simp [hcaller]
    exact (ht.move (Or.inr hinside) hfree).congr rfl rfl rfl rfl rfl rfl
  | wakeCaller hcaller => exact ht.move (Or.inr (by simp [hcaller])) (by simp [compacts, hcaller])
  | exit h hshutdown => exact ht.turn (hlooks h) fun _ => hshutdown
  | doze hflusher | wakeFlusher hflusher => exact ht.turn (by simp [compacts, hflusher]) (by simp)
  | takeFlush h => exact Threads.turn hadvance (hlooks h) (by simp)
  | takeCompact h => exact (ht.turn (hlooks h) (by simp)).congr rfl rfl rfl rfl rfl rfl
  | rest h => exact ht.turn (hlooks h) (by simp)
  | plan hactor => exact Threads.planned hadvance hactor
  | find hactor => exact Threads.planned hadvance (compacting_of_works hactor)
  | markFlushed hactor =>
    have hexited : FlusherPc.flushed = .exited → m.shutdown = true := by simp
    exact (Threads.turn hadvance (hflushing hactor) hexited).congr rfl rfl rfl rfl rfl rfl
  | markMerged hactor =>
    exact (Threads.merged hadvance (compacting_of_works hactor)).congr rfl rfl rfl rfl rfl rfl
  | failFlush hactor => exact Threads.turn hadvance (hflushing hactor) (by simp)
  | failCompact hactor => exact Threads.leave hadvance (compacting_of_works hactor) (by simp) _
  | setBackgroundError hflusher =>
    have hexited : FlusherPc.reported = .exited → m.shutdown = true := by simp
    exact (ht.turn (by simp [compacts, hflusher]) hexited).congr rfl rfl rfl rfl rfl rfl
  | notifyAll hactor => exact (ht.notified hactor).wakeAll
  | shutdown hdrop hinside =>
    have houtside : ∀ id, m.callers id = .outside := by
      intro id
      by_contra hid
      have := ht.inside id hid
      rw [hinside] at this
      cases this
    exact { ht with dropped := fun _ => houtside, shutdown := by simp, exited := fun _ => rfl }
  | join hdrop =>
    have hne : m.drop ≠ .running := by rw [hdrop]; simp
    exact { ht with dropped := fun _ => ht.dropped hne, shutdown := by simp [ht.shutdown.mpr hne] }

/-! ### The queue -/

/-- What the queue and the flush thread know about the store. -/
structure Queued (m : Monitor) : Prop where
  counted : m.engine.state.frozen.length ≤ m.engine.pending
  idle : m.flusher ≠ .flushing → m.engine.jobs .flush = .idle

/-- A thread in `compact_all` is not in a flush. -/
theorem ne_flushing_of_moveActor {actor : Actor} (h : m.inCompactAll actor = true)
    {flusher : FlusherPc} {caller : CallerPc}
    (hne : (m.moveActor flusher caller actor).flusher ≠ .flushing) : m.flusher ≠ .flushing := by
  cases actor with
  | flusher =>
    have hflusher : m.flusher = .compacting := of_decide_eq_true h
    simp [hflusher]
  | caller | dropper => exact hne

theorem ne_flushing_of_planned {actor : Actor} (h : m.inCompactAll actor = true)
    (hne : (m.planned actor).flusher ≠ .flushing) : m.flusher ≠ .flushing := by
  unfold planned at hne
  split_ifs at hne
  · exact ne_flushing_of_moveActor h hne
  · exact hne

theorem ne_flushing_of_notified {actor : Actor} (h : m.notifies actor = true)
    (hne : (m.notified actor).wakeAll.flusher ≠ .flushing) : m.flusher ≠ .flushing := by
  intro hflusher
  refine hne ?_
  cases actor with
  | flusher => simp [notifies, hflusher] at h
  | caller id =>
    have hsame : (m.notified (.caller id)).flusher = m.flusher := by
      unfold notified
      dsimp only
      split <;> rfl
    simp [wakeAll, hsame, hflusher, FlusherPc.wake]
  | dropper => simp [wakeAll, notified, hflusher, FlusherPc.wake]

/-- **Every step keeps what the queue knows.** -/
theorem Queued.step (hq : m.Queued) {action : MonitorAction} (h : m.Moves action m') :
    m'.Queued := by
  refine ⟨h.invariant (P := fun _ e _ => e.state.frozen.length ≤ e.pending)
    (fun _ hbelow hcounted => hbelow.moves.counted hcounted) hq.counted, fun hflusher => ?_⟩
  have hlooks : ∀ {action}, m.looks action = true → m.engine.jobs .flush = .idle := by
    intro action hlooks
    refine hq.idle ?_
    rcases flusher_of_looks hlooks with ⟨retry, hpc⟩ | hpc <;> simp [hpc]
  -- a step of a compaction, whoever runs it
  have hcompact : ∀ {action : Action} {dir : Dir} {e : Engine} {m'' : Monitor},
      Engine.Moves m.dir m.engine action dir e → action.slot = some .compact →
      m''.world = (m.advance action dir e).world → m.flusher ≠ .flushing →
      m''.engine.jobs .flush = .idle := by
    intro action dir e m'' hm hslot hworld hne
    rw [engine_of_world hworld, ← hq.idle hne]
    exact hm.flush_eq (by rw [hslot]; simp)
  cases h with
  | store hcall hm =>
    rw [← hq.idle hflusher]
    exact hm.flush_eq (by rw [slot_of_isCall hcall]; simp)
  | rotate _ _ hm | rotateSwap _ hm | rotateFail _ hm =>
    rw [← hq.idle hflusher]
    exact hm.flush_eq (by simp [Action.slot])
  | exit h | takeCompact h | rest h => exact hlooks h
  | doze hpc | wakeFlusher hpc | setBackgroundError hpc => exact hq.idle (by simp [hpc])
  | takeFlush => exact absurd rfl hflusher
  | @plan actor dir e hactor _ hm =>
    exact hcompact hm rfl (world_planned _ _)
      (ne_flushing_of_planned (m := m.advance .plan dir e) hactor hflusher)
  | @find actor dir e hactor hm =>
    exact hcompact hm rfl (world_planned _ _)
      (ne_flushing_of_planned (m := m.advance .find dir e) (compacting_of_works hactor) hflusher)
  | @task actor action slot dir e htask hslot hactor hm =>
    cases slot with
    | flush => exact absurd (flushing_of_works hactor) hflusher
    | compact =>
      rw [← hq.idle hflusher]
      exact hm.flush_eq (by rw [hslot]; simp)
  | markFlushed _ hm =>
    cases hm
    exact m.engine.setJob_self .flush .idle
  | failFlush _ hm =>
    cases hm
    exact m.engine.setJob_self .flush .idle
  | @markMerged actor dir e hactor hm =>
    exact hcompact hm rfl (world_moveActor _ _ _ actor) (ne_flushing_of_moveActor
      (m := m.advance (.done .compact) dir e) (compacting_of_works hactor) hflusher)
  | @failCompact actor err dir e hactor hm =>
    exact hcompact hm rfl (world_moveActor _ _ _ actor) (ne_flushing_of_moveActor
      (m := m.advance (.fail .compact) dir e) (compacting_of_works hactor) hflusher)
  | @notifyAll actor hactor =>
    have hengine : (m.notified actor).wakeAll.engine = m.engine :=
      engine_of_world (m.world_notified actor)
    rw [hengine]
    exact hq.idle (ne_flushing_of_notified hactor hflusher)
  | _ => exact hq.idle hflusher

/-! ### Sleepers -/

/-- A notification is on its way. -/
def Notifies (m : Monitor) : Prop := ∃ actor, m.notifies actor = true

/-- There is nothing for the flush thread to do. -/
def Rests (m : Monitor) : Prop :=
  m.shutdown = false ∧ m.shapeChanged = false ∧ m.engine.state.frozen = []

/-- What a sleeper waits for has not come about, or a notification is on its way. -/
structure Sleepers (m : Monitor) : Prop where
  rests : ∀ retry, m.flusher = .asleep retry → m.Notifies ∨ m.Rests
  waits : ∀ id, m.callers id = .asleep → m.Notifies ∨ 0 < m.engine.pending

theorem Sleepers.of_notifies (actor : Actor) (h : m.notifies actor = true) : m.Sleepers :=
  ⟨fun _ _ => Or.inl ⟨actor, h⟩, fun _ _ => Or.inl ⟨actor, h⟩⟩

theorem Sleepers.congr (hs : m.Sleepers) (hflusher : m'.flusher = m.flusher)
    (hcallers : m'.callers = m.callers) (hdrop : m'.drop = m.drop)
    (hshutdown : m'.shutdown = m.shutdown) (hshape : m'.shapeChanged = m.shapeChanged)
    (hfrozen : m.engine.state.frozen = [] → m'.engine.state.frozen = [])
    (hpending : m'.engine.pending = m.engine.pending) : m'.Sleepers := by
  have hnotifies : m.Notifies → m'.Notifies := by
    rintro ⟨actor, h⟩
    refine ⟨actor, ?_⟩
    unfold notifies at h ⊢
    rwa [hflusher, hcallers, hdrop]
  refine ⟨fun retry h => ?_, fun id h => ?_⟩
  · rw [hflusher] at h
    refine (hs.rests retry h).imp hnotifies fun hrests => ?_
    exact ⟨hshutdown.trans hrests.1, hshape.trans hrests.2.1, hfrozen hrests.2.2⟩
  · rw [hcallers] at h
    rw [hpending]
    exact (hs.waits id h).imp_left hnotifies

/-- A caller that does not notify moves. -/
theorem Notifies.setCaller (h : m.Notifies) {id : ℕ} (hid : m.notifies (.caller id) = false)
    (pc : CallerPc) : (m.setCaller id pc).Notifies := by
  obtain ⟨actor, h⟩ := h
  refine ⟨actor, ?_⟩
  cases actor with
  | flusher | dropper => exact h
  | caller id' =>
    have hne : id' ≠ id := by
      rintro rfl
      cases h.symm.trans hid
    simpa [notifies, Monitor.setCaller, Function.update_of_ne hne] using h

/-- The flush thread moves, and does not notify. -/
theorem Notifies.setFlusher (h : m.Notifies) (hnot : m.notifies .flusher = false) (pc : FlusherPc) :
    Notifies { m with flusher := pc } := by
  obtain ⟨actor, h⟩ := h
  cases actor with
  | flusher => cases h.symm.trans hnot
  | caller id => exact ⟨.caller id, h⟩
  | dropper => exact ⟨.dropper, h⟩

/-- The store moves, but neither freezes nor counts. -/
theorem Sleepers.advance (hs : m.Sleepers) {action : Action} {dir : Dir} {e : Engine}
    (hm : Engine.Moves m.dir m.engine action dir e) (hswap : action ≠ .rotateSwap)
    (hdone : ∀ slot, action ≠ .done slot) : (m.advance action dir e).Sleepers :=
  hs.congr rfl rfl rfl rfl rfl (hm.frozen_nil hswap) (hm.pending_eq hswap hdone)

/-- A caller that does not notify moves on, and not to sleep. -/
theorem Sleepers.move (hs : m.Sleepers) {id : ℕ} {pc : CallerPc}
    (hid : m.notifies (.caller id) = false) (hpc : pc ≠ .asleep) :
    (m.setCaller id pc).Sleepers := by
  refine ⟨fun retry h => (hs.rests retry h).imp_left fun h => h.setCaller hid pc, fun id' h => ?_⟩
  have hne : id' ≠ id := by
    rintro rfl
    exact hpc (by simpa [Monitor.setCaller] using h)
  have hasleep : m.callers id' = .asleep := by
    simpa [Monitor.setCaller, Function.update_of_ne hne] using h
  exact (hs.waits id' hasleep).imp_left fun h => h.setCaller hid pc

/-- The flush thread moves on, and not to sleep. -/
theorem Sleepers.turn (hs : m.Sleepers) {pc : FlusherPc} (hnot : m.notifies .flusher = false)
    (hpc : ∀ retry, pc ≠ .asleep retry) : Sleepers { m with flusher := pc } := by
  exact ⟨fun retry h => absurd h (hpc retry),
    fun id h => (hs.waits id h).imp_left fun h => h.setFlusher hnot pc⟩

/-- A thread in `compact_all` moves on, and not to sleep. -/
theorem Sleepers.moveActor (hs : m.Sleepers) {actor : Actor} (h : m.inCompactAll actor = true)
    {flusher : FlusherPc} (hflusher : ∀ retry, flusher ≠ .asleep retry) {caller : CallerPc}
    (hcaller : caller ≠ .asleep) : (m.moveActor flusher caller actor).Sleepers := by
  cases actor with
  | flusher =>
    have hpc : m.flusher = .compacting := of_decide_eq_true h
    exact hs.turn (by simp [notifies, hpc]) hflusher
  | caller id =>
    have hpc : m.callers id = .compacting := of_decide_eq_true h
    exact hs.move (by simp [notifies, hpc]) hcaller
  | dropper => cases h

theorem Sleepers.planned (hs : m.Sleepers) {actor : Actor} (h : m.inCompactAll actor = true) :
    (m.planned actor).Sleepers := by
  unfold Monitor.planned
  split_ifs
  · exact (hs.moveActor h (by simp) (by simp)).congr rfl rfl rfl rfl rfl id rfl
  · exact hs.congr rfl rfl rfl rfl rfl id rfl

/-- Nobody sleeps behind a `notify_all`. -/
theorem Sleepers.wakeAll (m : Monitor) : m.wakeAll.Sleepers := by
  refine ⟨fun retry h => ?_, fun id h => ?_⟩
  · unfold Monitor.wakeAll FlusherPc.wake at h
    cases hpc : m.flusher <;> simp [hpc] at h
  · unfold Monitor.wakeAll CallerPc.wake at h
    cases hpc : m.callers id <;> simp [hpc] at h

/-- A flush thread that finds no flush has none to find. -/
theorem Queued.frozen_nil (hq : m.Queued) {action : MonitorAction} (hlooks : m.looks action = true)
    (hfree : m.queueFree = true) (htake : m.engine.step m.dir .take = none) :
    m.engine.state.frozen = [] := by
  by_contra hfrozen
  have hidle : m.engine.jobs .flush = .idle := hq.idle (by
    rcases flusher_of_looks hlooks with ⟨retry, hpc⟩ | hpc <;> simp [hpc])
  have hrotating : m.engine.rotating = none :=
    Option.isNone_iff_eq_none.mp (Bool.and_eq_true_iff.mp hfree).1
  have hpending : 0 < m.engine.pending :=
    (List.length_pos_of_ne_nil hfrozen).trans_le hq.counted
  have hlast := List.getLast?_eq_some_getLast hfrozen
  simp only [Engine.step, Engine.takeStep, hidle, hlast,
    if_pos (And.intro hrotating hpending)] at htake
  cases htake

/-- **Every step keeps the sleepers covered.** -/
theorem Sleepers.step (hs : m.Sleepers) (hq : m.Queued) {action : MonitorAction}
    (h : m.Moves action m') : m'.Sleepers := by
  have hlooks : ∀ {action}, m.looks action = true → m.notifies .flusher = false := by
    intro action hlooks
    rcases flusher_of_looks hlooks with ⟨retry, hpc⟩ | hpc <;> simp [notifies, hpc]
  cases h with
  | @store action dir e hcall hm =>
    refine hs.advance hm ?_ ?_
    · rintro rfl
      cases hcall
    · rintro slot rfl
      cases hcall
  | refuse => exact hs.congr rfl rfl rfl rfl rfl id rfl
  | @rotate caller _ flush dir e _ hcaller hm =>
    have hid : m.notifies (.caller caller) = false := by simp [notifies, hcaller]
    refine (hs.advance hm (by simp) (by simp)).move hid ?_
    unfold begun
    split_ifs <;> simp
  | @rotateSwap caller flush => exact .of_notifies (.caller caller) (by simp [notifies, setCaller])
  | @rotateFail caller flush dir e hcaller hm =>
    have hid : m.notifies (.caller caller) = false := by simp [notifies, hcaller]
    exact (hs.advance hm (by simp) (by simp)).move hid (by simp)
  | enter _ hcaller | compact _ hcaller | wakeCaller hcaller =>
    exact hs.move (by simp [notifies, hcaller]) (by simp)
  | @error caller hcaller | @noError caller hcaller | @checked caller hcaller =>
    have hid : m.notifies (.caller caller) = false := by simp [notifies, hcaller]
    exact (hs.move hid (by simp)).congr rfl rfl rfl rfl rfl id rfl
  | @wait caller hcaller hpending =>
    have hid : m.notifies (.caller caller) = false := by simp [notifies, hcaller]
    exact ⟨fun retry h => (hs.rests retry h).imp_left fun h => h.setCaller hid .asleep,
      fun _ _ => Or.inr (Nat.pos_of_ne_zero hpending)⟩
  | exit h => exact hs.turn (hlooks h) (by simp)
  | doze hpc | wakeFlusher hpc => exact hs.turn (by simp [notifies, hpc]) (by simp)
  | takeFlush h hm => exact (hs.advance hm (by simp) (by simp)).turn (hlooks h) (by simp)
  | takeCompact h =>
    exact ⟨fun _ h => (by cases h), (hs.turn (hlooks h) (by simp)).waits⟩
  | @rest _ retry h hfree hshutdown htake hshape =>
    exact ⟨fun _ _ => Or.inr ⟨hshutdown, hshape, hq.frozen_nil h hfree htake⟩,
      fun id hid => (hs.waits id hid).imp_left fun hn => hn.setFlusher (hlooks h) (.asleep retry)⟩
  | plan hactor _ hm => exact (hs.advance hm (by simp) (by simp)).planned hactor
  | find hactor hm =>
    exact (hs.advance hm (by simp) (by simp)).planned (compacting_of_works hactor)
  | @task _ action _ _ _ htask _ _ hm =>
    refine hs.advance hm ?_ ?_
    · rintro rfl
      cases htask
    · rintro slot rfl
      cases htask
  | markFlushed => exact .of_notifies .flusher rfl
  | @markMerged actor dir e hactor hm =>
    have hcompacts := compacting_of_works hactor
    cases actor with
    | flusher => exact .of_notifies .flusher rfl
    | caller id => exact .of_notifies (.caller id) (by
        simp [notifies, Monitor.merged, Monitor.moveActor, Monitor.setCaller])
    | dropper => cases hcompacts
  | failFlush hactor hm =>
    refine (hs.advance hm (by simp) (by simp)).turn ?_ (by simp)
    simp [notifies, flushing_of_works hactor, Monitor.advance]
  | failCompact hactor hm =>
    have hadvanced := hs.advance hm (by simp) (by simp)
    exact (hadvanced.moveActor (compacting_of_works hactor) (by simp) (by simp)).congr
      rfl rfl rfl rfl rfl id rfl
  | setBackgroundError => exact .of_notifies .flusher rfl
  | notifyAll => exact .wakeAll _
  | shutdown => exact .of_notifies .dropper rfl
  | join hdrop =>
    have hnotifies : m.Notifies → Notifies { m with drop := .joined } := by
      rintro ⟨actor, h⟩
      cases actor with
      | flusher => exact ⟨.flusher, h⟩
      | caller id => exact ⟨.caller id, h⟩
      | dropper => simp [notifies, hdrop] at h
    exact ⟨fun retry h => (hs.rests retry h).imp_left hnotifies,
      fun id h => (hs.waits id h).imp_left hnotifies⟩

/-! ### Whole runs -/

/-- A store that was just opened. -/
def OpenedOn (w : World) (m : Monitor) : Prop :=
  w.engine = none ∧ ∃ (config : Config) (w' : World), w.step (.openStore config) = some w'
    ∧ w'.engine = some m.engine ∧ m = opened w'.dir m.engine

/-- A store that was just opened, on whatever earlier sessions left. -/
def Opened (m : Monitor) : Prop :=
  ∃ w, Reachable World.step (fun _ _ => True) (· = World.initial) w ∧ OpenedOn w m

/-- Whether no removal of a replaced log fails in a step. -/
def RemovesLogs (m : Monitor) : MonitorAction → Prop
  | .failFlush _ => (m.engine.jobs .flush).isUnlinking = false
  | _ => True

/-- What a store and its threads keep while no removal of a replaced log fails. -/
structure Inv (m : Monitor) : Prop where
  files : Files m.dir m.engine
  agrees : m.engine.QueueAgrees
  threads : m.Threads
  queued : m.Queued
  sleepers : m.Sleepers

/-- The engine that was opened. -/
theorem OpenedOn.openedFrom {w : World} (h : OpenedOn w m) (hw : w.Consistent) :
    (∃ config, OpenedFrom w.dir config m.dir m.engine) ∧ m = opened m.dir m.engine := by
  obtain ⟨hdown, config, w', hstep, hengine, heq⟩ := h
  obtain ⟨hsound, hlogs⟩ := hw.closed hdown
  have hdir : m.dir = w'.dir := congrArg Monitor.dir heq
  rw [← hdir] at heq
  refine ⟨⟨config, ?_⟩, heq⟩
  cases World.moves_of_step hstep with
  | engine hopen => cases hdown.symm.trans hopen
  | openStore _ hopen =>
    rw [hdir, ← Option.some.inj hengine]
    exact Lsmkv.openedFrom hsound hlogs hopen

theorem Opened.inv (h : m.Opened) : m.Inv := by
  obtain ⟨w, hw, h⟩ := h
  obtain ⟨⟨config, hopened⟩, heq⟩ := h.openedFrom (consistent_of_reachable hw)
  obtain ⟨r, hfresh, -⟩ := hopened.fresh
  refine ⟨hopened.files, ?_, ?_, ?_, ?_⟩
  · rw [hfresh]
    exact fun _ => rfl
  · rw [heq]
    exact ⟨fun _ h => (by cases h), fun _ h => absurd rfl h, fun h => absurd rfl h,
      by simp [opened], fun h => (by cases h)⟩
  · refine ⟨?_, fun _ => ?_⟩ <;> rw [hfresh]
    · exact le_rfl
    · rfl
  · rw [heq]
    exact ⟨fun _ h => (by cases h), fun _ h => (by cases h)⟩

/-- **Every step keeps the invariant.** -/
theorem Inv.step (hi : m.Inv) {action : MonitorAction} (hok : m.RemovesLogs action)
    (h : m.step action = some m') : m'.Inv := by
  have hm := moves_of_step h
  refine ⟨hm.invariant (P := fun dir e _ => Files dir e)
      (fun _ hbelow hfiles => hfiles.step hbelow.moves) hi.files,
    hm.invariant (P := fun _ e _ => e.QueueAgrees) (fun below hbelow hagrees => ?_) hi.agrees,
    hi.threads.step hm, hi.queued.step hm, hi.sleepers.step hi.queued hm⟩
  refine hagrees.step hi.files (fun hfail => ?_) hbelow.moves
  obtain ⟨err, rfl⟩ := hbelow.fails hfail
  exact hok

theorem inv_of_reachable (hm : Reachable step RemovesLogs Opened m) : m.Inv :=
  hm.invariant (fun _ h => h.inv) fun _ _ _ _ hi hok h => hi.step hok h

/-- **No notification is lost.**  In every run in which no removal of a replaced log fails, whatever
else fails, and in every state in which no notification is on its way: if the flush thread sleeps,
the engine is not being dropped, there is nothing to flush and no compaction to look for, and nobody
waits for a flush; whoever does is waited on by a flush thread that has something to do; and a drop
of the engine does not join a thread that sleeps. -/
theorem no_lost_wakeup {m : Monitor} (hm : Reachable step RemovesLogs Opened m)
    (hquiet : ∀ actor, m.notifies actor = false) :
    (∀ retry, m.flusher = .asleep retry → m.shutdown = false ∧ m.shapeChanged = false
      ∧ m.engine.state.frozen = [] ∧ ∀ id, m.callers id ≠ .asleep)
    ∧ (∀ id, m.callers id = .asleep → 0 < m.engine.pending ∧ m.flusher ≠ .exited)
    ∧ (m.drop = .joining → ∀ retry, m.flusher ≠ .asleep retry) := by
  have hi := inv_of_reachable hm
  have hnot : ¬ m.Notifies := by
    rintro ⟨actor, h⟩
    cases h.symm.trans (hquiet actor)
  have hrests : ∀ retry, m.flusher = .asleep retry → m.Rests := fun retry h =>
    (hi.sleepers.rests retry h).resolve_left hnot
  have hwaits : ∀ id, m.callers id = .asleep → 0 < m.engine.pending := fun id h =>
    (hi.sleepers.waits id h).resolve_left hnot
  refine ⟨fun retry h => ?_, fun id h => ⟨hwaits id h, fun hexited => ?_⟩, fun hdrop retry h => ?_⟩
  · obtain ⟨hshutdown, hshape, hfrozen⟩ := hrests retry h
    refine ⟨hshutdown, hshape, hfrozen, fun id hid => ?_⟩
    -- the count is right while no flush is on its way
    have hidle := hi.queued.idle (by rw [h]; simp)
    have hpending := hi.agrees (by rw [hidle]; rfl)
    have := hwaits id hid
    rw [hpending, hfrozen] at this
    cases this
  · have hdrop := hi.threads.shutdown.mp (hi.threads.exited hexited)
    cases h.symm.trans (hi.threads.dropped hdrop id)
  · have hshutdown := hi.threads.shutdown.mpr (by rw [hdrop]; simp)
    cases hshutdown.symm.trans (hrests retry h).1

/-- A check of `RemovesLogs`. -/
def removesLogs (m : Monitor) : MonitorAction → Bool
  | .failFlush _ => !(m.engine.jobs .flush).isUnlinking
  | _ => true

theorem removesLogs_sound (m : Monitor) (action : MonitorAction) (h : m.removesLogs action = true) :
    m.RemovesLogs action := by
  unfold RemovesLogs
  split
  · simpa [removesLogs] using h
  · trivial

/-- The threads of a store in an empty directory. -/
def start (config : Config) : Option Monitor :=
  (World.initial.step (.openStore config)).bind fun w => w.engine.map (opened w.dir)

theorem openedOn_of_start {config : Config} (h : start config = some m) :
    OpenedOn World.initial m := by
  obtain ⟨w', hstep, h⟩ := Option.bind_eq_some_iff.mp h
  obtain ⟨e, he, rfl⟩ := Option.map_eq_some_iff.mp h
  exact ⟨rfl, config, w', hstep, he, rfl⟩

/-- A trace of the threads of a new store that ends in a state passing a test. -/
theorem exists_of_start {config : Config} {trace : List MonitorAction} {test : Monitor → Bool}
    (h : ((start config).bind fun m => run step removesLogs m trace).map test = some true) :
    ∃ m, Reachable step RemovesLogs Opened m ∧ test m = true := by
  obtain ⟨m', h, htest⟩ := Option.map_eq_some_iff.mp h
  obtain ⟨m, hstart, hrun⟩ := Option.bind_eq_some_iff.mp h
  have hopened : Opened m := ⟨_, .start rfl, openedOn_of_start hstart⟩
  exact ⟨m', Reachable.of_run removesLogs_sound (.start hopened) hrun, htest⟩

/-- Whether no notification is on its way. -/
def quiet (m : Monitor) : Bool :=
  !m.notifies .flusher && !m.notifies .dropper && m.inside.all fun id => !m.notifies (.caller id)

theorem Threads.notifies_eq_false (ht : m.Threads) (h : m.quiet = true) (actor : Actor) :
    m.notifies actor = false := by
  simp only [quiet, Bool.and_eq_true, Bool.not_eq_true', List.all_eq_true] at h
  cases actor with
  | flusher => exact h.1.1
  | dropper => exact h.1.2
  | caller id =>
    by_cases hid : m.callers id = .outside
    · simp [notifies, hid]
    · exact h.2 id (ht.inside id hid)

/-- A caller of `Engine::flush` sleeps, and the flush thread is at work. -/
def waitingForFlush : List MonitorAction :=
  (Action.alwaysWrite 1 [1] (some [7])).map .store
    ++ [.rotate 1 0 true, .rotateSwap 1, .notifyAll (.caller 1), .nextTask, .takeError 1, .check 1]

theorem no_lost_wakeup_waitingForFlush : ∃ m : Monitor, m.callers 1 = .asleep
    ∧ m.flusher = .flushing ∧ 0 < m.engine.pending ∧ m.flusher ≠ .exited := by
  obtain ⟨m, hm, htest⟩ := exists_of_start (by decide +kernel :
    ((start ⟨.always, 100, 4, 10⟩).bind fun m => run step removesLogs m waitingForFlush).map
      (fun m => m.callers 1 = .asleep && m.flusher = .flushing && m.quiet) = some true)
  simp only [Bool.and_eq_true, decide_eq_true_iff] at htest
  obtain ⟨⟨hcaller, hflusher⟩, hquiet⟩ := htest
  have hnot := (inv_of_reachable hm).threads.notifies_eq_false hquiet
  exact ⟨m, hcaller, hflusher, (no_lost_wakeup hm hnot).2.1 1 hcaller⟩

end Monitor

end Lsmkv
