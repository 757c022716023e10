import Mathlib.Algebra.Order.BigOperators.Group.List
import Mathlib.Data.Prod.Lex
import Lsmkv.Engine.Queue
import Lsmkv.Engine.Reopen
import Lsmkv.Wal.Progress

/-!
# The store comes to rest

Clients, the log, a rotation, the flush thread and a compaction wait for each other: for the log a
rotation replaces, for the calls that keep it from doing so, for the append lock, for a flush of the
log another thread has in flight, for the durable state.  While nothing fails, none of them waits in
vain (`Steady.canAdvance`), and whatever they do brings the store closer to rest
(`Steady.closer`).  So once no new calls come in and no new compactions begin, every schedule ends,
with every frozen memtable in a table and every call returned (`settles`).
-/

namespace Lsmkv

open Wal

/-- Whether an action takes further what is going on in the store, and nothing fails in it.  The
contents the file of a new log goes through are skipped: `rotateSwap` completes it. -/
def Action.advances : Action → Bool
  | .wal _ event | .oldWal _ _ event => event.continues && event.faultless
  | .dropLog _ fault => fault.isNone
  | .insert _ | .leave _ | .rotateSwap | .take | .find | .alloc _ | .create _ | .finish _
  | .rename _ | .openOutput _ | .ready _ | .lock _ | .createManifest _ | .writeManifest _
  | .renameManifest _ | .publish _ | .unlink _ | .done _ => true
  | _ => false

theorem Action.faultless_of_advances {action : Action} (h : action.advances = true) :
    action.faultless = true := by
  cases action with
  | wal thread event | oldWal number thread event => exact (Bool.and_eq_true_iff.mp h).2
  | _ => first | exact h | rfl | cases h

/-! ### What a store relies on while nothing fails -/

/-- A store in which nothing has failed since it was opened. -/
structure Steady (dir : Dir) (e : Engine) : Prop where
  logs : Logs dir e
  turns : ∀ p ∈ e.openLogFiles, p.2.Turns
  queue : e.QueueAgrees
  /-- The inputs a compaction has still to remove are there. -/
  inputs : ∀ slot snapshot plan numbers, e.jobs slot = .unlinking (.compact snapshot plan) numbers →
    numbers.Nodup ∧ ∀ n ∈ numbers, n ∈ dir.tables

section

variable {dir dir' : Dir} {e e' : Engine}

/-- A compaction takes no file twice. -/
theorem inputNumbers_nodup {snapshot : Snapshot} {plan : Plan}
    (hnumbers : (snapshot.files.map FileMeta.number).Nodup)
    (hinputs : plan.inputs = Compaction.inputsFor snapshot plan.level) :
    plan.inputNumbers.Nodup := by
  have hlevel : ∀ level, (snapshot.atLevel level).Nodup := fun level =>
    (List.Nodup.of_map _ hnumbers).filter _
  have hdrained : (Compaction.drained snapshot plan.level).Nodup := by
    unfold Compaction.drained
    split_ifs
    · exact hlevel 0
    · cases (snapshot.atLevel plan.level).argmin FileMeta.number <;> simp
  have hnodup : plan.inputs.Nodup := by
    rw [hinputs]
    refine List.Nodup.append hdrained ((hlevel _).filter _) fun f hf hf' => ?_
    have hown := (Compaction.mem_drained hf).2
    have hbelow := (Snapshot.mem_atLevel.mp (List.mem_of_mem_filter hf')).2
    omega
  refine hnodup.map_on fun f hf g hg heq => ?_
  rw [hinputs] at hf hg
  exact List.inj_on_of_nodup_map hnumbers (Compaction.inputsFor_subset hf).1
    (Compaction.inputsFor_subset hg).1 heq

theorem Steady.turns_step (hs : Steady dir e) {action : Action}
    (hm : Engine.Moves dir e action dir' e') : ∀ p ∈ e'.openLogFiles, p.2.Turns := by
  have hstep : ∀ {label : Thread × Event} {wal : Shared}, e.wal.step label = some wal →
      wal.Turns := fun {label wal} h => by
    obtain ⟨t, event⟩ := label
    exact (hs.turns (e.walNumber, e.wal) (mem_openLogFiles.mpr (Or.inr rfl))).step
      hs.logs.calm_wal.inv h
  have hwal : ∀ {wal : Shared}, wal.Turns → e'.retired = e.retired → e'.wal = wal →
      ∀ p ∈ e'.openLogFiles, p.2.Turns := by
    intro wal hturns hretired hwal p hp
    rcases mem_openLogFiles.mp hp with hp | rfl
    · exact hs.turns p (mem_openLogFiles.mpr (Or.inl (hretired ▸ hp)))
    · rw [hwal]
      exact hturns
  have hcurrent := hs.turns (e.walNumber, e.wal) (mem_openLogFiles.mpr (Or.inr rfl))
  cases hm with
  | write _ _ h | sync _ _ h | wal _ h | insert _ h => exact hwal (hstep h) rfl rfl
  | @rotateSwap number r =>
    intro p hp
    rcases mem_openLogFiles.mp hp with hp | rfl
    · exact hs.turns p hp
    · exact Shared.Turns.new _ _
  | @oldWal number thread event old wal hevent hold h =>
    have hmem : (number, old) ∈ e.openLogFiles :=
      mem_openLogFiles.mpr (Or.inl (List.mem_of_find?_eq_some hold))
    intro p hp
    rcases mem_openLogFiles.mp hp with hp | rfl
    · obtain ⟨q, hq, rfl⟩ := List.mem_map.mp hp
      split_ifs
      · exact (hs.turns _ hmem).step (hs.logs.calm _ hmem).1.inv h
      · exact hs.turns q (mem_openLogFiles.mpr (Or.inl hq))
    · exact hcurrent
  | dropLog =>
    intro p hp
    rcases mem_openLogFiles.mp hp with hp | rfl
    · exact hs.turns p (mem_openLogFiles.mpr (Or.inl (List.mem_of_mem_filter hp)))
    · exact hcurrent
  | _ => exact hwal hcurrent rfl rfl

/-- The inputs a compaction has still to remove stay where they are. -/
theorem Steady.inputs_step (hs : Steady dir e) (hi : Files dir e) {action : Action}
    (hf : action.faultless = true) (hm : Engine.Moves dir e action dir' e') :
    ∀ slot snapshot plan numbers, e'.jobs slot = .unlinking (.compact snapshot plan) numbers →
      numbers.Nodup ∧ ∀ n ∈ numbers, n ∈ dir'.tables := by
  by_cases hslot : action.slot = none
  · have hside := hm.logSide hslot
    rw [hside.jobs, hside.tables]
    exact hs.inputs
  -- a task at a point where it removes nothing, with the tables of the others
  have hgoto : ∀ {slot : Slot} {pc : JobPc}, e'.jobs = (e.setJob slot pc).jobs →
      (∀ n ∈ dir.tables, n ∈ dir'.tables) → pc.isUnlinking = false →
      ∀ slot snapshot plan numbers, e'.jobs slot = .unlinking (.compact snapshot plan) numbers →
        numbers.Nodup ∧ ∀ n ∈ numbers, n ∈ dir'.tables := by
    intro slot pc hjobs htables hpc slot' snapshot plan numbers hslot'
    rw [hjobs] at hslot'
    by_cases heq : slot' = slot
    · subst heq
      rw [Engine.setJob_self] at hslot'
      rw [hslot'] at hpc
      cases hpc
    · rw [e.setJob_of_ne pc heq] at hslot'
      obtain ⟨hnodup, hmem⟩ := hs.inputs _ _ _ _ hslot'
      exact ⟨hnodup, fun n hn => htables n (hmem n hn)⟩
  -- a task that removes what is there
  have hremove : ∀ {slot : Slot} {target : Target} {numbers : List ℕ},
      e'.jobs = (e.setJob slot (.unlinking target numbers)).jobs →
      (∀ slot', slot' ≠ slot → ∀ snapshot plan numbers,
        e.jobs slot' = .unlinking (.compact snapshot plan) numbers →
          ∀ n ∈ numbers, n ∈ dir'.tables) →
      (∀ snapshot plan, target = .compact snapshot plan →
        numbers.Nodup ∧ ∀ n ∈ numbers, n ∈ dir'.tables) →
      ∀ slot snapshot plan numbers, e'.jobs slot = .unlinking (.compact snapshot plan) numbers →
        numbers.Nodup ∧ ∀ n ∈ numbers, n ∈ dir'.tables := by
    intro slot target numbers hjobs hothers hself slot' snapshot plan numbers' hslot'
    rw [hjobs] at hslot'
    by_cases heq : slot' = slot
    · subst heq
      rw [Engine.setJob_self] at hslot'
      obtain ⟨htarget, rfl⟩ := JobPc.unlinking.inj hslot'
      exact hself _ _ htarget
    · rw [e.setJob_of_ne _ heq] at hslot'
      exact ⟨(hs.inputs _ _ _ _ hslot').1, hothers _ heq _ _ _ hslot'⟩
  cases hm with
  | write | sync | wal | insert | leave | rotateNot | rotate | rotateWrite | rotateSwap
  | rotateFail | oldWal | dropLog => exact absurd rfl hslot
  | planNot => exact hs.inputs
  | fail => cases hf
  | rename =>
    exact hgoto rfl (fun n hn => (AList.mem_insert _).mpr (Or.inr hn)) rfl
  | take | plan | abandon | find | alloc | create | finish | openOutput | ready | lock
  | createManifest | writeManifest | renameManifest | done => exact hgoto rfl (fun _ => id) rfl
  | @publish slot job next hpc =>
    refine hremove rfl (fun slot' _ snapshot plan numbers h => (hs.inputs _ _ _ _ h).2)
      fun snapshot plan htarget => ?_
    have hok := hi.jobs slot
    rw [hpc] at hok
    have htargetOk := hok.1.target
    rw [htarget] at htargetOk ⊢
    cases slot with
    | flush => exact htargetOk.elim
    | compact =>
      obtain ⟨hinputs, added, hfiles, -⟩ := htargetOk.1
      have hnumbers := hi.arranged.numbers
      rw [hfiles, List.map_append] at hnumbers
      refine ⟨inputNumbers_nodup (List.nodup_append.mp hnumbers).1 hinputs, fun n hn => ?_⟩
      obtain ⟨f, hf, rfl⟩ := List.mem_map.mp hn
      have hmem : f ∈ e.snapshot.files := by
        rw [hfiles]
        rw [hinputs] at hf
        exact List.mem_append_left _ (Compaction.inputsFor_subset hf).1
      obtain ⟨t, ht, rfl⟩ := hi.arranged.exists_table hmem
      rw [← AList.lookup_isSome, hi.arranged.stored _ t ht]
      rfl
  | unlinkLog hpc =>
    refine hremove rfl (fun slot' _ snapshot plan numbers h => (hs.inputs _ _ _ _ h).2)
      fun snapshot plan htarget => (by cases htarget)
  | @unlinkTable slot snapshot plan number rest hpc =>
    obtain ⟨hnodup, hmem⟩ := hs.inputs _ _ _ _ hpc
    obtain ⟨hnumber, hrest⟩ := List.nodup_cons.mp hnodup
    refine hremove rfl (fun slot' hne snapshot' plan' numbers' h n hn => ?_)
      fun _ _ _ => ⟨hrest, fun n hn => ?_⟩
    · -- the other task removes other tables
      refine AList.mem_erase.mpr ⟨?_, (hs.inputs _ _ _ _ h).2 n hn⟩
      rintro rfl
      refine hi.apart slot' slot hne n ?_ ?_
      · rw [h]
        exact hn
      · rw [hpc]
        exact List.mem_cons_self
    · refine AList.mem_erase.mpr ⟨?_, hmem n (List.mem_cons_of_mem _ hn)⟩
      rintro rfl
      exact hnumber hn

/-- **A step in which nothing fails keeps a store steady.** -/
theorem Steady.step (hs : Steady dir e) (hi : Files dir e) (hr : dir.LogsReadable) {action : Action}
    (hf : action.faultless = true) (hm : Engine.Moves dir e action dir' e') : Steady dir' e' where
  logs := (hs.logs.step hi hr (hm.orderly hf) hm).1
  turns := hs.turns_step hm
  queue := hs.queue.step hi (fun haction => (by rw [haction] at hf; cases hf)) hm
  inputs := hs.inputs_step hi hf hm

theorem OpenedFrom.steady {config : Config} (ho : OpenedFrom dir config dir' e) :
    Steady dir' e := by
  obtain ⟨r, heq, -⟩ := ho.fresh
  refine ⟨ho.logs.1, ?_, ?_, ?_⟩
  · rw [heq]
    intro p hp
    rcases mem_openLogFiles.mp hp with hp | rfl
    · cases hp
    · exact Shared.Turns.new _ _
  · rw [heq]
    exact fun _ => rfl
  · rw [heq]
    intro _ _ _ _ h
    cases h

end

/-! ### How far the store is from rest -/

/-- How many steps are left of an output file. -/
def Output.work (o : Output) : ℕ :=
  match o.phase with
  | .allocated => 4
  | .created => 3
  | .finished => 2
  | .renamed => 1

namespace JobPc

/-- How many steps a task may still take. -/
def work : JobPc → ℕ
  | idle | planned _ _ => 0
  | writing job => 5 * job.todo.length + (job.current.elim 0 Output.work) + 7
    + job.target.unlinks.length
  | ready job _ => 6 + job.target.unlinks.length
  | committing job _ .locked => 5 + job.target.unlinks.length
  | committing job _ .created => 4 + job.target.unlinks.length
  | committing job _ .written => 3 + job.target.unlinks.length
  | committing job _ .renamed => 2 + job.target.unlinks.length
  | unlinking _ numbers => 1 + numbers.length

/-- Whether a task has taken something and not published its outputs. -/
def isBusy : JobPc → Bool
  | writing _ | ready _ _ | committing _ _ _ => true
  | _ => false

/-- Whether a compaction is at its plan. -/
def isPlanned : JobPc → Bool
  | planned _ _ => true
  | _ => false

end JobPc

/-- How many steps the flush of a frozen memtable takes. -/
def Frozen.work (f : Frozen) : ℕ := 13 + f.logs.length

/-- How many steps the threads inside a log may still take, the clients in `readers` and the
background thread. -/
def Wal.Shared.workOf (wal : Shared) (readers : List ℕ) : ℕ :=
  (readers.map fun i => wal.rank (wal.thread (.client i)) + 1).sum + wal.rank (wal.thread .syncer)

namespace Engine

/-- The frozen memtables no flush has taken yet. -/
def untaken (e : Engine) : List Frozen :=
  if (e.jobs .flush).isBusy then e.state.frozen.dropLast else e.state.frozen

/-- How many steps a rotation may still take, with the flush of what it freezes. -/
def rotatingWork (e : Engine) : ℕ := if e.rotating.isSome then 15 + e.state.activeLogs.length else 0

/-- How many steps the logs may still take.  A log that was replaced has no clients, and is
dropped in the end. -/
def logWork (e : Engine) : ℕ :=
  e.wal.workOf e.readers + (e.retired.map fun p => p.2.workOf [] + 1).sum

/-- How many steps the store may still take, but for a compaction that has only its plan. -/
def work (e : Engine) : ℕ :=
  e.logWork + e.rotatingWork + (e.untaken.map Frozen.work).sum
    + (e.jobs .flush).work + (e.jobs .compact).work

/-- Whether a compaction has only its plan, and the steps of all the rest. -/
def distance (e : Engine) : ℕ ×ₗ ℕ := toLex (if (e.jobs .compact).isPlanned then 1 else 0, e.work)

end Engine

section

variable {dir dir' : Dir} {e e' : Engine}

theorem Engine.distance_lt (hplanned : (e'.jobs .compact).isPlanned = (e.jobs .compact).isPlanned)
    (hwork : e'.work < e.work) : e'.distance < e.distance := by
  unfold Engine.distance
  rw [hplanned]
  exact Prod.Lex.right _ hwork

/-- A thread in a log moves on. -/
theorem Wal.Shared.workOf_lt {wal wal' : Shared} {readers : List ℕ} {t : Thread} {event : Event}
    (hclients : ∀ i, i ∉ readers → wal.thread (.client i) = .idle)
    (h : wal.step (t, event) = some wal')
    (hlt : wal'.rank (wal'.thread t) < wal.rank (wal.thread t)) :
    wal'.workOf readers < wal.workOf readers := by
  have hle : ∀ u, wal'.rank (wal'.thread u) ≤ wal.rank (wal.thread u) := fun u => by
    by_cases hu : u = t
    · rw [hu]
      exact hlt.le
    · rw [Shared.step_thread h hu]
      exact Shared.rank_le_of_settled (fun _ hsettled => hsettled.step h) _
  have hsum : (readers.map fun i => wal'.rank (wal'.thread (.client i)) + 1).sum
      ≤ (readers.map fun i => wal.rank (wal.thread (.client i)) + 1).sum :=
    List.sum_le_sum fun i _ => Nat.succ_le_succ (hle _)
  cases t with
  | syncer => exact add_lt_add_of_le_of_lt hsum hlt
  | client i =>
    have hi : i ∈ readers := by
      by_contra hnot
      rw [hclients i hnot] at hlt
      cases hlt
    exact add_lt_add_of_lt_of_le (List.sum_lt_sum _ _ (fun j _ => Nat.succ_le_succ (hle _))
      ⟨i, hi, Nat.succ_lt_succ hlt⟩) (hle _)

/-- A client that leaves takes its share of the work with it. -/
theorem Wal.Shared.workOf_erase {wal : Shared} {readers : List ℕ} {client : ℕ}
    (hclient : client ∈ readers) : wal.workOf (readers.erase client) < wal.workOf readers := by
  have hperm := (List.perm_cons_erase hclient).map fun i => wal.rank (wal.thread (.client i)) + 1
  unfold Shared.workOf
  rw [hperm.sum_eq, List.map_cons, List.sum_cons]
  omega

/-- The work of a log that was just created. -/
theorem Wal.Shared.workOf_new (policy : SyncPolicy) (r : Recovered) :
    (Shared.new policy r).workOf [] = 0 := rfl

/-- The steps of calls and logs leave rotations and tasks alone. -/
theorem Engine.distance_lt_of_logs (hjobs : e'.jobs = e.jobs)
    (hrotating : e'.rotatingWork = e.rotatingWork) (huntaken : e'.untaken = e.untaken)
    (hwork : e'.logWork < e.logWork) : e'.distance < e.distance := by
  refine Engine.distance_lt (by rw [hjobs]) ?_
  unfold Engine.work
  rw [hjobs, hrotating, huntaken]
  omega

/-- The steps of a task leave logs, rotations and the other task alone. -/
theorem Engine.distance_lt_of_job {slot : Slot} {pc : JobPc} (hside : Engine.JobSide slot e e')
    (hself : e'.jobs slot = pc) (hpc : pc.isPlanned = false)
    (hold : (e.jobs slot).isPlanned = false)
    (hwork : (e'.untaken.map Frozen.work).sum + pc.work
      < (e.untaken.map Frozen.work).sum + (e.jobs slot).work) : e'.distance < e.distance := by
  have hlogs : e'.logWork = e.logWork := by
    unfold Engine.logWork
    rw [hside.wal, hside.readers, hside.retired]
  have hrotating : e'.rotatingWork = e.rotatingWork := by
    unfold Engine.rotatingWork
    rw [hside.rotating, hside.activeLogs]
  cases slot with
  | flush =>
    refine Engine.distance_lt (by rw [hside.jobs .compact (by simp)]) ?_
    unfold Engine.work
    rw [hlogs, hrotating, hself, hside.jobs .compact (by simp)]
    omega
  | compact =>
    refine Engine.distance_lt (by rw [hself, hpc, hold]) ?_
    unfold Engine.work
    rw [hlogs, hrotating, hself, hside.jobs .flush (by simp)]
    omega

/-- A compaction that leaves its plan behind. -/
theorem Engine.distance_lt_of_find {snapshot : Snapshot} {plan : Plan} {pc : JobPc}
    (hpc : e.jobs .compact = .planned snapshot plan) (hplanned : pc.isPlanned = false) :
    (e.setJob .compact pc).distance < e.distance := by
  refine Prod.Lex.left _ _ ?_
  rw [Engine.setJob_self, hpc, hplanned]
  exact Nat.zero_lt_one

/-- A task that moves on short of its publication keeps what it has taken. -/
theorem Engine.untaken_congr {slot : Slot} {pc : JobPc}
    (hjobs : e'.jobs = (e.setJob slot pc).jobs) (hfrozen : e'.state.frozen = e.state.frozen)
    (hbusy : pc.isBusy = (e.jobs slot).isBusy) : e'.untaken = e.untaken := by
  unfold Engine.untaken
  rw [hjobs, hfrozen, e.setJob_congr JobPc.isBusy hbusy]

/-- A flush that is busy has a memtable. -/
theorem Files.frozen_ne_nil_of_busy (hi : Files dir e) (hbusy : (e.jobs .flush).isBusy = true) :
    e.state.frozen ≠ [] := by
  have hlast : ∀ job, JobOk dir e .flush job → e.state.frozen ≠ [] := by
    intro job hok hnil
    have htarget := hok.target
    cases hjob : job.target with
    | flush frozen =>
      rw [hjob] at htarget
      have hlast : e.state.frozen.getLast? = some frozen := htarget.1
      rw [hnil] at hlast
      cases hlast
    | compact =>
      rw [hjob] at htarget
      exact htarget.elim
  have hok := hi.jobs .flush
  cases hpc : e.jobs .flush with
  | idle | planned | unlinking =>
    rw [hpc] at hbusy
    cases hbusy
  | writing job =>
    rw [hpc] at hok
    exact hlast job hok
  | ready job | committing job =>
    rw [hpc] at hok
    exact hlast job hok.1

/-- A rotation counts the steps of the flush it makes room for. -/
theorem Steady.closer_rotateSwap (hs : Steady dir e) (hi : Files dir e) {number : ℕ}
    {r : Recovered} (hrotating : e.rotating = some number) :
    Engine.distance
        { e with
          wal := Wal.Shared.new e.config.sync r
          walNumber := number
          rotating := none
          retired := e.retired ++ [(e.walNumber, e.wal)]
          state.active := Memtable.new
          state.activeLogs := [number]
          state.frozen := ⟨e.state.active, e.state.activeLogs⟩ :: e.state.frozen
          pending := e.state.frozen.length + 1 } < e.distance := by
  have hreaders : e.readers = [] := hs.logs.rotating (by rw [hrotating]; simp)
  -- a flush that is busy has taken a memtable, which stays the oldest
  have huntaken : ∀ f, (if (e.jobs .flush).isBusy then (f :: e.state.frozen).dropLast
      else f :: e.state.frozen) = f :: e.untaken := by
    intro f
    unfold Engine.untaken
    split_ifs with hbusy
    · exact List.dropLast_cons_of_ne_nil (hi.frozen_ne_nil_of_busy hbusy)
    · rfl
  refine Engine.distance_lt rfl ?_
  unfold Engine.work
  refine Nat.add_lt_add_right (Nat.add_lt_add_right ?_ _) _
  change (Shared.new e.config.sync r).workOf e.readers
      + ((e.retired ++ [(e.walNumber, e.wal)]).map fun p => p.2.workOf [] + 1).sum + 0
      + (List.map Frozen.work (if (e.jobs .flush).isBusy then
          (⟨e.state.active, e.state.activeLogs⟩ :: e.state.frozen).dropLast
        else ⟨e.state.active, e.state.activeLogs⟩ :: e.state.frozen)).sum < _
  rw [huntaken, List.map_cons, List.sum_cons, List.map_append, List.sum_append, hreaders,
    Shared.workOf_new]
  unfold Engine.logWork Engine.rotatingWork
  rw [hreaders, hrotating]
  simp only [List.map_cons, List.map_nil, List.sum_cons, List.sum_nil, Frozen.work,
    Option.isSome_some, if_true]
  omega

/-- A flush takes the memtable that has been waiting longest. -/
theorem Engine.closer_take {frozen : Frozen} (hside : Engine.JobSide .flush e e')
    (hself : e'.jobs .flush = .writing ⟨.flush frozen, [frozen.memtable.run], none, []⟩)
    (hpc : e.jobs .flush = .idle) (hstate : e'.state = e.state)
    (hfrozen : e.state.frozen.getLast? = some frozen) : e'.distance < e.distance := by
  have hsplit : e.state.frozen = e.state.frozen.dropLast ++ [frozen] :=
    (List.dropLast_append_getLast? frozen hfrozen).symm
  refine Engine.distance_lt_of_job hside hself rfl (by rw [hpc]; rfl) ?_
  unfold Engine.untaken
  rw [hself, hpc, hstate]
  change (e.state.frozen.dropLast.map Frozen.work).sum + _
    < (e.state.frozen.map Frozen.work).sum + 0
  conv_rhs => rw [hsplit, List.map_append, List.sum_append]
  simp only [JobPc.work, List.map_cons, List.map_nil, List.sum_cons, List.sum_nil, Frozen.work,
    List.length_singleton, Option.elim_none, Target.unlinks]
  omega

/-- A flush that publishes its table drops the memtable it has taken. -/
theorem Engine.closer_publish (hi : Files dir e) {slot : Slot} {job : Job} {next : Snapshot}
    (hside : Engine.JobSide slot e e')
    (hself : e'.jobs slot = .unlinking job.target job.target.unlinks)
    (hpc : e.jobs slot = .committing job next .renamed)
    (hstate : e'.state = job.target.publish job.outputs e.state) : e'.distance < e.distance := by
  have hok := hi.jobs slot
  rw [hpc] at hok
  have htarget := hok.1.target
  refine Engine.distance_lt_of_job hside hself rfl (by rw [hpc]; rfl) ?_
  have huntaken : e'.untaken = e.untaken := by
    unfold Engine.untaken
    rw [hstate]
    cases slot with
    | flush =>
      rw [hself, hpc]
      cases hjob : job.target with
      | flush => rfl
      | compact =>
        rw [hjob] at htarget
        exact htarget.elim
    | compact =>
      rw [hside.jobs .flush (by simp)]
      cases hjob : job.target with
      | flush =>
        rw [hjob] at htarget
        exact htarget.elim
      | compact => rfl
  rw [huntaken, hpc]
  simp only [JobPc.work]
  omega

/-- **Whatever takes things further brings the store closer to rest.** -/
theorem Steady.closer (hs : Steady dir e) (hi : Files dir e) {action : Action}
    (hadvances : action.advances = true) (hm : Engine.Moves dir e action dir' e') :
    e'.distance < e.distance := by
  have hcurrent := hs.turns (e.walNumber, e.wal) (mem_openLogFiles.mpr (Or.inr rfl))
  have hside : ∀ {slot : Slot}, action.slot = some slot → Engine.JobSide slot e e' := hm.jobSide
  -- a task that moves on short of its publication
  have htask : ∀ {slot : Slot} {pc : JobPc}, action.slot = some slot →
      e'.jobs = (e.setJob slot pc).jobs → e'.state.frozen = e.state.frozen →
      pc.isBusy = (e.jobs slot).isBusy → pc.isPlanned = false →
      (e.jobs slot).isPlanned = false → pc.work < (e.jobs slot).work →
      e'.distance < e.distance := by
    intro slot pc hslot hjobs hfrozen hbusy hpc hold hlt
    refine Engine.distance_lt_of_job (hside hslot) (by rw [hjobs, Engine.setJob_self]) hpc hold ?_
    rw [Engine.untaken_congr hjobs hfrozen hbusy]
    exact Nat.add_lt_add_left hlt _
  cases hm with
  | write | sync | rotateNot | rotate | rotateWrite | rotateFail | planNot | plan | fail =>
    cases hadvances
  | wal hevent hwal =>
    have hcontinues := (Bool.and_eq_true_iff.mp hadvances).1
    have hlt := Shared.workOf_lt hs.logs.clients hwal (Shared.rank_lt hcurrent hcontinues hwal)
    exact Engine.distance_lt_of_logs rfl rfl rfl (Nat.add_lt_add_right hlt _)
  | @insert client entry wal hthread hwal =>
    have hidle : wal.thread (.client client) = .idle := by
      simp only [Shared.step, hthread] at hwal
      obtain rfl := Option.some.inj hwal
      exact Function.update_self _ _ _
    have hlt := Shared.workOf_lt hs.logs.clients hwal (by
      rw [hidle, hthread]
      exact Nat.zero_lt_one)
    exact Engine.distance_lt_of_logs rfl rfl rfl (Nat.add_lt_add_right hlt _)
  | leave hclient =>
    exact Engine.distance_lt_of_logs rfl rfl rfl
      (Nat.add_lt_add_right (Shared.workOf_erase hclient) _)
  | rotateSwap hrotating => exact hs.closer_rotateSwap hi hrotating
  | @oldWal number thread event old wal hevent hold hwal =>
    have hmem := List.mem_of_find?_eq_some hold
    have hcontinues := (Bool.and_eq_true_iff.mp hadvances).1
    have hopen : ∀ {p}, p ∈ e.retired → p ∈ e.openLogFiles := fun hp =>
      mem_openLogFiles.mpr (Or.inl hp)
    have hlt : wal.workOf [] < old.workOf [] := Shared.workOf_lt
      (fun i _ => hs.logs.retired _ hmem i) hwal
      (Shared.rank_lt (hs.turns _ (hopen hmem)) hcontinues hwal)
    refine Engine.distance_lt_of_logs rfl rfl rfl (Nat.add_lt_add_left ?_ _)
    rw [List.map_map]
    refine List.sum_lt_sum _ _ (fun p hp => ?_) ⟨_, hmem, ?_⟩
    · by_cases hnumber : p.1 = number
      · obtain rfl := hs.logs.eq_of_number (hopen hp) (hopen hmem) hnumber
        simp only [Function.comp_apply, if_pos]
        exact Nat.succ_le_succ hlt.le
      · simp only [Function.comp_apply, if_neg hnumber, le_refl]
    · simp only [Function.comp_apply, if_pos]
      exact Nat.succ_lt_succ hlt
  | @dropLog number fault old hold =>
    have hmem := List.mem_of_find?_eq_some hold
    refine Engine.distance_lt_of_logs rfl rfl rfl (Nat.add_lt_add_left ?_ _)
    have hsplit := List.sum_map_filter_add_sum_map_filter_not (fun q => q.1 ≠ number)
      (fun p : ℕ × Shared => p.2.workOf [] + 1) e.retired
    refine lt_of_lt_of_eq (Nat.lt_add_of_pos_right ?_) hsplit
    exact lt_of_lt_of_le (Nat.succ_pos _) (List.single_le_sum (fun _ _ => Nat.zero_le _) _
      (List.mem_map_of_mem (List.mem_filter.mpr ⟨hmem, by simp⟩)))
  | take hpc hrotating hfrozen =>
    exact Engine.closer_take (hside rfl) (e.setJob_self _ _) hpc rfl hfrozen
  | abandon hpc | find hpc => exact Engine.distance_lt_of_find hpc rfl
  | alloc hpc | create hpc | finish hpc | rename hpc | openOutput hpc | ready hpc | lock hpc
  | createManifest hpc | writeManifest hpc | renameManifest hpc | unlinkLog hpc | unlinkTable hpc
  | done hpc =>
    refine htask rfl rfl rfl ?_ rfl ?_ ?_ <;> rw [hpc] <;> try rfl
    all_goals simp [JobPc.work, Output.work]
    all_goals omega
  | publish hpc => exact Engine.closer_publish hi (hside rfl) (e.setJob_self _ _) hpc rfl

/-! ### Somebody can go on -/

/-- Some action takes the store further. -/
def Engine.CanAdvance (dir : Dir) (e : Engine) : Prop :=
  ∃ action dir' e', action.advances = true ∧ e.step dir action = some (dir', e')

/-- A task that holds the durable state can go on. -/
theorem canAdvance_of_committing (hi : Files dir e) (hrotating : e.rotating = none) {slot : Slot}
    {job : Job} {next : Snapshot} {phase : CommitPhase}
    (hpc : e.jobs slot = .committing job next phase) : e.CanAdvance dir := by
  have hok := hi.jobs slot
  rw [hpc] at hok
  cases phase with
  | locked =>
    exact ⟨.createManifest slot, _, _, rfl, by
      simp only [Engine.step, Engine.manifestStep, hpc]; rfl⟩
  | created =>
    exact ⟨.writeManifest slot, _, _, rfl, by
      simp only [Engine.step, Engine.manifestStep, hpc]; rfl⟩
  | written =>
    have htemp := hok.2.2.2.1 rfl
    exact ⟨.renameManifest slot, _, _, rfl, by
      simp only [Engine.step, Engine.manifestStep, hpc, htemp]; rfl⟩
  | renamed =>
    exact ⟨.publish slot, _, _, rfl, by
      simp only [Engine.step, Engine.manifestStep, hpc, hrotating]; rfl⟩

/-- A task that writes its outputs can go on. -/
theorem canAdvance_of_writing (hi : Files dir e) (hrotating : e.rotating = none) {slot : Slot}
    {job : Job} (hpc : e.jobs slot = .writing job) : e.CanAdvance dir := by
  have hok : JobOk dir e slot job := by
    have := hi.jobs slot
    rwa [hpc] at this
  obtain ⟨target, todo, current, outputs⟩ := job
  cases current with
  | none =>
    cases todo with
    | nil =>
      exact ⟨.ready slot, _, _, rfl, by
        simp only [Engine.step, Engine.readyStep, hpc, hrotating]; rfl⟩
    | cons run todo =>
      exact ⟨.alloc slot, _, _, rfl, by simp only [Engine.step, Engine.allocStep, hpc]; rfl⟩
  | some output =>
    obtain ⟨number, run, phase⟩ := output
    cases phase with
    | allocated =>
      exact ⟨.create slot, _, _, rfl, by simp only [Engine.step, Engine.outputStep, hpc]; rfl⟩
    | created =>
      exact ⟨.finish slot, _, _, rfl, by simp only [Engine.step, Engine.outputStep, hpc]; rfl⟩
    | finished =>
      have hpartial := hok.finished _ rfl rfl
      exact ⟨.rename slot, _, _, rfl, by
        simp only [Engine.step, Engine.outputStep, hpc, hpartial]; rfl⟩
    | renamed =>
      have htable := hok.renamed _ rfl rfl
      exact ⟨.openOutput slot, _, _, rfl, by
        simp only [Engine.step, Engine.outputStep, openTable, hpc, htable]; rfl⟩

/-- What a task has still to remove is there. -/
theorem canAdvance_of_unlinking (hs : Steady dir e) (hrotating : e.rotating = none) {slot : Slot}
    {target : Target} {numbers : List ℕ} (hpc : e.jobs slot = .unlinking target numbers) :
    e.CanAdvance dir := by
  cases numbers with
  | nil =>
    exact ⟨.done slot, _, _, rfl, by simp only [Engine.step, Engine.doneStep, hpc, hrotating]; rfl⟩
  | cons number rest =>
    cases target with
    | flush frozen =>
      have hlog : number ∈ dir.logs := by
        cases slot with
        | flush =>
          refine hs.logs.present number ?_
          rw [Engine.liveLogs, hpc]
          exact List.mem_append_left _ (List.mem_append_left _ List.mem_cons_self)
        | compact =>
          have hnone := hs.logs.compacts
          rw [hpc] at hnone
          cases hnone
      exact ⟨.unlink slot, _, _, rfl, by
        simp only [Engine.step, Engine.unlinkStep, hpc, if_pos hlog]; rfl⟩
    | compact snapshot plan =>
      have htable := (hs.inputs _ _ _ _ hpc).2 number List.mem_cons_self
      exact ⟨.unlink slot, _, _, rfl, by
        simp only [Engine.step, Engine.unlinkStep, hpc, if_pos htable]; rfl⟩

/-- A task that is not idle can go on, or the one that keeps the durable state from it. -/
theorem canAdvance_of_job (hs : Steady dir e) (hi : Files dir e) (hrotating : e.rotating = none)
    {slot : Slot} (hbusy : e.jobs slot ≠ .idle) : e.CanAdvance dir := by
  cases hpc : e.jobs slot with
  | idle => exact absurd hpc hbusy
  | planned snapshot plan =>
    have hok := hi.jobs slot
    rw [hpc] at hok
    obtain rfl := hok.1
    refine ⟨.find, ?_⟩
    simp only [Engine.step, Engine.findStep, hpc, if_pos hrotating]
    split_ifs <;> exact ⟨_, _, rfl, rfl⟩
  | writing job => exact canAdvance_of_writing hi hrotating hpc
  | ready job lastSeq =>
    by_cases hfree : e.durableFree = true
    · exact ⟨.lock slot, _, _, rfl, by
        simp only [Engine.step, Engine.lockStep, hpc, if_pos hfree]; rfl⟩
    · -- the other task is committing
      unfold Engine.durableFree at hfree
      split at hfree
      · exact canAdvance_of_committing hi hrotating ‹_›
      · exact canAdvance_of_committing hi hrotating ‹_›
      · exact absurd rfl hfree
  | committing job next phase => exact canAdvance_of_committing hi hrotating hpc
  | unlinking target numbers => exact canAdvance_of_unlinking hs hrotating hpc

/-- A step of a log is a step of the store. -/
theorem Wal.Event.internal_of_continues {event : Event} (h : event.continues = true) (t : Thread) :
    event.internal t = true := by
  cases event with
  | append | sync | resume => cases h
  | _ => rfl

/-- A thread inside the current log can go on, or whoever it waits for. -/
theorem canAdvance_of_thread (hs : Steady dir e) {t : Thread}
    (hseq : (e.wal.thread t).appends = true → e.wal.lastSeq + 1 < u64Limit)
    (hbusy : (e.wal.thread t).isDone = false) : e.CanAdvance dir := by
  have hturns : e.wal.Turns := hs.turns (e.walNumber, e.wal) (mem_openLogFiles.mpr (Or.inr rfl))
  obtain ⟨u, event, wal, hcontinues, hfaultless, h⟩ := Shared.exists_step hturns hseq hbusy
  have hinternal := Event.internal_of_continues hcontinues u
  exact ⟨.wal u event, _, _, Bool.and_eq_true_iff.mpr ⟨hcontinues, hfaultless⟩, by
    simp only [Engine.step, Engine.walStep, if_pos hinternal, h]; rfl⟩

/-- The background thread of a log has no append to return from. -/
theorem Wal.Shared.Calm.isDone_syncer {s : Shared} (hc : s.Calm) (h : s.thread .syncer ≠ .idle) :
    (s.thread .syncer).isDone = false := by
  have hsyncer := hc.syncer
  cases hpc : s.thread .syncer with
  | idle => exact absurd hpc h
  | returned => simp [hpc, Pc.appends, Pc.record] at hsyncer
  | _ => rfl

/-- A log that was replaced can be dropped, or its background thread can go on. -/
theorem canAdvance_of_retired (hs : Steady dir e) {p : ℕ × Shared} (hp : p ∈ e.retired) :
    e.CanAdvance dir := by
  obtain ⟨number, old⟩ := p
  have hopen : (number, old) ∈ e.openLogFiles := mem_openLogFiles.mpr (Or.inl hp)
  have hfind : e.retired.find? (fun p => p.1 = number) = some (number, old) := by
    cases hfound : e.retired.find? fun p => p.1 = number with
    | none =>
      have := List.find?_eq_none.mp hfound _ hp
      simp at this
    | some q =>
      have hq : q.1 = number := by simpa using List.find?_some hfound
      rw [hs.logs.eq_of_number (mem_openLogFiles.mpr (Or.inl (List.mem_of_find?_eq_some hfound)))
        hopen hq]
  by_cases hidle : old.thread .syncer = .idle
  · exact ⟨.dropLog number none, _, _, rfl, by
      simp only [Engine.step, Engine.dropLogStep, hfind, Option.bind_some, if_pos hidle]; rfl⟩
  · have hcalm := (hs.logs.calm _ hopen).1
    have hturns : old.Turns := hs.turns _ hopen
    obtain ⟨u, event, wal, hcontinues, hfaultless, h⟩ := Shared.exists_step hturns
      (fun h => by cases h.symm.trans hcalm.syncer) (hcalm.isDone_syncer hidle)
    have hinternal := Event.internal_of_continues hcontinues u
    exact ⟨.oldWal number u event, _, _, Bool.and_eq_true_iff.mpr ⟨hcontinues, hfaultless⟩, by
      simp only [Engine.step, Engine.oldWalStep, if_pos hinternal, hfind, Option.bind_some, h]
      rfl⟩

/-- **Somebody can go on** until the store is at rest and every frozen memtable in a table. -/
theorem Steady.canAdvance (hs : Steady dir e) (hi : Files dir e) (hr : dir.LogsReadable)
    (hseq : e.wal.lastSeq + 1 < u64Limit) (hbusy : e.atRest = true → e.state.frozen ≠ []) :
    e.CanAdvance dir := by
  -- a rotation keeps the tasks from the state, so it goes first
  cases hrotating : e.rotating with
  | some number =>
    obtain ⟨r, hrecover, -⟩ := Wal.recover_spec number e.wal.lastSeq (hr.getD number)
    exact ⟨.rotateSwap, _, _, rfl, by
      simp only [Engine.step, Engine.rotateSwapStep, hrotating, hrecover]; rfl⟩
  | none =>
    by_cases hjobs : ∀ slot, e.jobs slot = .idle
    swap
    · obtain ⟨slot, hslot⟩ := not_forall.mp hjobs
      exact canAdvance_of_job hs hi hrotating hslot
    by_cases hfrozen : e.state.frozen = []
    swap
    · have hpending : 0 < e.pending := by
        rw [hs.queue (by rw [hjobs]; rfl)]
        exact List.length_pos_of_ne_nil hfrozen
      have hlast := List.getLast?_eq_some_getLast hfrozen
      exact ⟨.take, _, _, rfl, by
        simp only [Engine.step, Engine.takeStep, hjobs, hlast,
          if_pos (And.intro hrotating hpending)]; rfl⟩
    by_cases hretired : e.retired = []
    swap
    · obtain ⟨p, hp⟩ := List.exists_mem_of_ne_nil _ hretired
      exact canAdvance_of_retired hs hp
    by_cases hreaders : e.readers = []
    swap
    · obtain ⟨client, hclient⟩ := List.exists_mem_of_ne_nil _ hreaders
      cases hpc : e.wal.thread (.client client) with
      | idle =>
        exact ⟨.leave client, _, _, rfl, by
          simp only [Engine.step, Engine.leaveStep, if_pos (And.intro hclient hpc)]; rfl⟩
      | returned entry =>
        exact ⟨.insert client, _, _, rfl, by
          simp only [Engine.step, Engine.insertStep, hpc, Shared.step]; rfl⟩
      | _ => exact canAdvance_of_thread hs (fun _ => hseq) (by rw [hpc]; rfl)
    by_cases hsyncer : e.wal.thread .syncer = .idle
    · exact absurd hfrozen (hbusy (Engine.atRest_iff.mpr
        ⟨hreaders, hrotating, hretired, hjobs, hsyncer⟩))
    · exact canAdvance_of_thread hs (fun _ => hseq) (hs.logs.calm_wal.isDone_syncer hsyncer)

end

/-! ### Whole runs -/

namespace World

/-- What earlier sessions can leave, whatever happened in them. -/
def Left (w : World) : Prop :=
  Reachable World.step (fun _ _ => True) (· = World.initial) w ∧ w.engine = none

/-- A store in which nothing has failed since it was opened, if it is open. -/
structure IsSteady (w : World) : Prop where
  consistent : w.Consistent
  steady : ∀ e, w.engine = some e → Steady w.dir e

theorem Left.isSteady {w : World} (hw : w.Left) : w.IsSteady where
  consistent := consistent_of_reachable hw.1
  steady e he := by
    rw [hw.2] at he
    cases he

theorem IsSteady.step {w w' : World} (hw : w.IsSteady) {action : Action}
    (hf : action.faultless = true) (h : w.step action = some w') : w'.IsSteady := by
  refine ⟨hw.consistent.step (moves_of_step h), fun e' he' => ?_⟩
  cases moves_of_step h with
  | engine hengine hmoves =>
    obtain rfl := Option.some.inj he'
    obtain ⟨hfiles, hlogs⟩ := hw.consistent.opened hengine
    exact (hw.steady _ hengine).step hfiles hlogs.readable hf hmoves
  | openStore hengine hopen =>
    obtain rfl := Option.some.inj he'
    obtain ⟨hsound, hlogs⟩ := hw.consistent.closed hengine
    exact (openedFrom hsound hlogs hopen).steady
  | kill | close | openKilled => cases he'

/-- A step of the engine is a step of the store. -/
theorem step_of_advances {w : World} {e e' : Engine} {dir' : Dir} {action : Action}
    (he : w.engine = some e) (hadvances : action.advances = true)
    (h : e.step w.dir action = some (dir', e')) :
    w.step action = some ⟨dir', some e', w.history.observe action e e'⟩ := by
  unfold World.step
  rw [he]
  cases action with
  | kill | close => cases hadvances
  | _ =>
    simp only [h]
    rfl

/-- A steady store that is open. -/
structure Serving (w : World) : Prop extends w.IsSteady where
  isOpen : w.engine.isSome = true

/-- How far the store is from rest. -/
def distance (w : World) : ℕ ×ₗ ℕ := w.engine.elim (toLex (0, 0)) Engine.distance

/-- What takes the store further keeps it open and brings it closer to rest. -/
theorem Serving.step {w w' : World} (hw : w.Serving) {action : Action}
    (hadvances : action.advances = true) (h : w.step action = some w') :
    w'.Serving ∧ w'.distance < w.distance := by
  have hsteady := hw.toIsSteady.step (Action.faultless_of_advances hadvances) h
  obtain ⟨e, he⟩ := Option.isSome_iff_exists.mp hw.isOpen
  cases moves_of_step h with
  | engine hengine hmoves =>
    obtain rfl := Option.some.inj (he.symm.trans hengine)
    refine ⟨⟨hsteady, rfl⟩, ?_⟩
    have hcloser := (hw.steady _ he).closer (hw.consistent.opened he).1 hadvances hmoves
    rw [distance, distance, he]
    exact hcloser
  | openStore | openKilled | kill | close => cases hadvances

end World

/-- **The store comes to rest.**  Take any state of a session in which nothing fails, whatever
happened in the sessions before it, and let everything that is going on take its course while no new
calls, rotations or compactions begin: the calls inside the logs, a rotation, the flush thread, a
compaction, in any order.  They never go on for ever, and they never block each other: when nobody
can take a step, every call has returned, every replaced log is dropped, every frozen memtable is in
a table and the queue is empty, unless the sequence numbers have run out. -/
theorem settles {w : World}
    (hw : Reachable World.step (fun _ action => action.faultless = true) World.Left w)
    (hopen : w.engine.isSome = true) :
    (¬ ∃ f : ℕ → World, f 0 = w ∧ ∀ n, ∃ action : Action, action.advances = true
      ∧ (f n).step action = some (f (n + 1)))
    ∧ ∀ (actions : List Action) (w' : World),
      run World.step (fun _ action => action.advances) w actions = some w' →
      (∀ action : Action, action.advances = true → w'.step action = none) →
      ∃ e, w'.engine = some e ∧ (e.wal.lastSeq + 1 < u64Limit →
        e.atRest = true ∧ e.state.frozen = [] ∧ e.pending = 0) := by
  have hserving : w.Serving := ⟨hw.invariant (fun _ h => h.isSteady)
    fun _ _ _ _ hi hf h => hi.step hf h, hopen⟩
  have hstep : ∀ (w : World) (action : Action) (w' : World), w.Serving →
      action.advances = true → w.step action = some w' → w'.Serving ∧ w'.distance < w.distance :=
    fun _ _ _ hi hadvances h => hi.step hadvances h
  refine ⟨not_exists_infinite wellFounded_lt hstep hserving, fun actions w' hrun hstuck => ?_⟩
  have hend : w'.Serving := run_invariant (fun w action w' hi hadvances h =>
    (hstep w action w' hi hadvances h).1) hserving hrun
  obtain ⟨e, he⟩ := Option.isSome_iff_exists.mp hend.isOpen
  have hsteady := hend.steady e he
  obtain ⟨hfiles, hlogs⟩ := hend.consistent.opened he
  refine ⟨e, he, fun hseq => ?_⟩
  have hrest : e.atRest = true ∧ e.state.frozen = [] := by
    by_contra hbusy
    obtain ⟨action, dir', e', hadvances, h⟩ := hsteady.canAdvance hfiles hlogs.readable hseq
      fun hrest hfrozen => hbusy ⟨hrest, hfrozen⟩
    cases (hstuck action hadvances).symm.trans (World.step_of_advances he hadvances h)
  have hidle := (Engine.atRest_iff.mp hrest.1).2.2.2.1 .flush
  refine ⟨hrest.1, hrest.2, ?_⟩
  rw [hsteady.queue (by rw [hidle]; rfl), hrest.2]
  rfl

/-- A store whose flush has begun, with a log to drop and a call under way. -/
def flushUnderWay : List Action :=
  List.flatten [[.openStore ⟨.always, 100, 4, 10⟩], Action.alwaysWrite 1 [1] (some [7]),
    [.rotate 0, .rotateSwap, .take, .alloc .flush, .write 2 [2] none, .wal (.client 2) .accept]]

theorem settles_flushUnderWay : ∃ (w : World) (e : Engine), w.engine = some e
    ∧ e.readers = [2] ∧ e.retired.length = 1 ∧ e.state.frozen.length = 1
    ∧ ¬ ∃ f : ℕ → World, f 0 = w ∧ ∀ n, ∃ action : Action, action.advances = true
      ∧ (f n).step action = some (f (n + 1)) := by
  have hleft : World.initial.Left := ⟨.start rfl, rfl⟩
  obtain ⟨w, hw, htest⟩ := Reachable.exists_of_run (fun _ _ h => h) hleft
    (by decide +kernel : (run World.step (fun _ action => action.faultless) World.initial
      flushUnderWay).map (fun w => w.engine.any fun e => decide (e.readers = [2])
        && e.retired.length = 1 && e.state.frozen.length = 1) = some true)
  obtain ⟨e, he, htest⟩ := (Option.any_eq_true _ _).mp htest
  simp only [Bool.and_eq_true, decide_eq_true_iff] at htest
  obtain ⟨⟨hreaders, hretired⟩, hfrozen⟩ := htest
  exact ⟨w, e, he, hreaders, hretired, hfrozen, (settles hw (by rw [he]; rfl)).1⟩

end Lsmkv
