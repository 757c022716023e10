import Lsmkv.Engine.Sequence

/-!
# Rotations under the interval policy

Under `Interval` an append returns while its record is still in the buffer of the log.  A rotation
swaps the logs first and drops the previous one later, so for a while the previous log has records
in memory only, and the new one can be written, and answer `Engine::sync`, before they are
(`sync_overtakes_rotation`).

As long as that does not happen (`Engine.WritesInOrder`), a kill leaves the first mutations of the
session, and among them all that a call of `Engine::sync` covered (`survivors_eq_take`).  `Progress`
is what carries this: a record that its log has written is behind no buffered one.
-/

namespace Lsmkv

open Wal

namespace Engine

/-- Nothing is left in the buffers of the logs before `number`, but for those whose table the
manifest names. -/
def Drained (e : Engine) (h : History) (number : ℕ) : Prop :=
  ∀ p ∈ e.retired, p.1 < number → p.1 ∉ h.replaced → p.2.buf = []

/-- Whether a step writes a log, or lets a call of `Engine::sync` return, only when nothing is left
in the buffers of the logs before it. -/
def WritesInOrder (e : Engine) (h : History) : Action → Prop
  | .wal _ (.write _) => e.wal.buf ≠ [] → e.Drained h e.walNumber
  | .wal (.client client) .check =>
    e.syncReturns client (.wal (.client client) .check) = true → e.Drained h e.walNumber
  | .oldWal number _ (.write _) => ∀ p ∈ e.retired, p.1 = number → p.2.buf ≠ [] → e.Drained h number
  | .dropLog number _ => ∀ p ∈ e.retired, p.1 = number → p.2.buf ≠ [] → e.Drained h number
  | _ => True

/-- The log of a mutation has written it, or is closed. -/
def Reached (e : Engine) (p : ℕ × Entry) : Prop :=
  ∀ q ∈ e.openLogFiles, q.1 = p.1 → p.2.seq ≤ q.2.written

end Engine

/-- Whether a mutation is left in a directory: its record in its log, or in the table of a flush. -/
def History.survives (h : History) (dir : Dir) (p : ℕ × Entry) : Bool :=
  p.1 ∈ h.replaced ∨ p.2 ∈ contents ((dir.logs.lookup p.1).getD [])

/-! ### What a step does to the open logs -/

/-- What a step does to the open logs: those there were go on, and a log writes, or goes, only when
those before it are drained. -/
structure Advance (e : Engine) (h : History) (e' : Engine) : Prop where
  number : e.walNumber ≤ e'.walNumber
  kept : ∀ q ∈ e'.openLogFiles, q.1 ≤ e.walNumber → ∃ p ∈ e.openLogFiles, p.1 = q.1
    ∧ q.2.opened = p.2.opened ∧ p.2.appended <+: q.2.appended ∧ p.2.written ≤ q.2.written
  new : ∀ q ∈ e'.openLogFiles, e.walNumber < q.1 →
    q.2.appended = [] ∧ ∀ v ∈ contents q.2.opened.file, v.seq ≤ q.2.opened.lastSeq
  buffers : ∀ q ∈ e'.retired, q.1 < e.walNumber →
    ∃ p ∈ e.retired, p.1 = q.1 ∧ (p.2.buf = [] → q.2.buf = [])
  moved : ∀ p ∈ e.openLogFiles, p.2.buf ≠ [] → e.Drained h p.1
    ∨ ∃ q ∈ e'.openLogFiles, q.1 = p.1 ∧ q.2.written = p.2.written
  encoded : e.encodedBy e' = [] ∨ ∃ v, e.encodedBy e' = [v] ∧ e'.walNumber = e.walNumber
    ∧ v ∈ e'.wal.appended ∧ e'.wal.written < v.seq

section

variable {dir dir' : Dir} {e e' : Engine} {h : History}

theorem Logs.number_le (hl : Logs dir e) {p : ℕ × Shared} (hp : p ∈ e.openLogFiles) :
    p.1 ≤ e.walNumber := by
  rcases mem_openLogFiles.mp hp with hp | rfl
  · exact (hl.retired_lt hp).le
  · exact le_rfl

/-- A step that leaves the open logs alone. -/
theorem Logs.advance_eq (hl : Logs dir e) (hwal : e'.wal = e.wal)
    (hnumber : e'.walNumber = e.walNumber) (hretired : e'.retired = e.retired) :
    Advance e h e' := by
  have hopen : e'.openLogFiles = e.openLogFiles := by
    rw [Engine.openLogFiles, hwal, hnumber, hretired]
    rfl
  refine ⟨hnumber.ge, fun q hq _ => ?_, fun q hq hlt => ?_, fun q hq _ => ?_, fun p hp _ => ?_,
    Or.inl (encodedBy_eq_nil (Or.inl hwal))⟩
  · exact ⟨q, hopen ▸ hq, rfl, rfl, List.prefix_rfl, le_rfl⟩
  · exact absurd (hl.number_le (hopen ▸ hq)) hlt.not_ge
  · exact ⟨q, hretired ▸ hq, rfl, id⟩
  · exact Or.inr ⟨p, hopen ▸ hp, rfl, rfl⟩

/-- A thread moves in the current log. -/
theorem Logs.advance_wal (hl : Logs dir e) {t : Thread} {event : Event}
    (horder : ∀ fault, event = .write fault → e.wal.buf ≠ [] → e.Drained h e.walNumber)
    (hstep : e.wal.step (t, event) = some e'.wal) (hnumber : e'.walNumber = e.walNumber)
    (hretired : e'.retired = e.retired) : Advance e h e' := by
  have hcalm := hl.calm_wal
  obtain ⟨hle, hwritten⟩ := hcalm.written_step hstep
  have hopen : ∀ q, q ∈ e'.openLogFiles ↔ q ∈ e.retired ∨ q = (e.walNumber, e'.wal) := by
    intro q
    rw [mem_openLogFiles, hretired, hnumber]
  refine ⟨hnumber.ge, fun q hq _ => ?_, fun q hq hlt => ?_, fun q hq _ => ?_,
    fun p hp hbuf => ?_, ?_⟩
  · rcases (hopen q).mp hq with hq | rfl
    · exact ⟨q, mem_openLogFiles.mpr (Or.inl hq), rfl, rfl, List.prefix_rfl, le_rfl⟩
    · exact ⟨_, mem_openLogFiles.mpr (Or.inr rfl), rfl, (Shared.step_policy hstep).2,
        Shared.step_appended hstep, hle⟩
  · rcases (hopen q).mp hq with hq | rfl
    · exact absurd (hl.retired_lt hq) hlt.not_gt
    · exact absurd hlt (lt_irrefl _)
  · exact ⟨q, hretired ▸ hq, rfl, id⟩
  · rcases mem_openLogFiles.mp hp with hp | rfl
    · exact Or.inr ⟨p, (hopen p).mpr (Or.inl hp), rfl, rfl⟩
    · rcases hwritten with heq | ⟨⟨fault, hwrite⟩, -⟩
      · exact Or.inr ⟨_, (hopen _).mpr (Or.inr rfl), rfl, heq⟩
      · exact Or.inl (horder fault hwrite hbuf)
  · rw [Engine.encodedBy, if_pos hnumber]
    rcases Shared.step_log hstep with hlog | ⟨v, hseq, -, hlog⟩ | ⟨fault, -, hlog⟩
    · rw [hlog, List.drop_length]
      exact Or.inl rfl
    · rw [hlog]
      refine Or.inr ⟨v, List.drop_left, hnumber,
        List.mem_append_right _ (List.mem_singleton_self v), ?_⟩
      have := hcalm.inv.log.written_le
      change e.wal.written < v.seq
      omega
    · rw [hlog, (e.wal.toLog.writePending_spec fault).2.2.1, List.drop_length]
      exact Or.inl rfl

/-- The background thread of a replaced log moves. -/
theorem Logs.advance_oldWal (hl : Logs dir e) {number : ℕ} {t : Thread} {event : Event}
    {old wal : Shared} (hf : event.faultless = true) (hevent : event.internal t = true)
    (hold : e.retired.find? (fun p => p.1 = number) = some (number, old))
    (horder : ∀ fault, event = .write fault → old.buf ≠ [] → e.Drained h number)
    (hstep : old.step (t, event) = some wal) : Advance e h
      { e with retired := e.retired.map fun q => if q.1 = number then (number, wal) else q } := by
  obtain ⟨hopen, hmem, hne⟩ := hl.find_retired hold
  have hcalm := (hl.calm _ hopen).1
  -- no client is left in a retired log
  obtain rfl : t = .syncer := by
    cases t with
    | syncer => rfl
    | client id => exact absurd (hl.retired _ hmem id) (Shared.ne_idle_of_internal hstep hevent)
  obtain ⟨hle, hwritten⟩ := hcalm.written_step hstep
  have happended := hcalm.appended_syncer hf hstep
  set e' : Engine :=
    { e with retired := e.retired.map fun q => if q.1 = number then (number, wal) else q } with he'
  have hretired : ∀ q ∈ e'.retired, q = (number, wal) ∨ q ∈ e.retired := by
    intro q hq
    obtain ⟨p, hp, rfl⟩ := List.mem_map.mp hq
    split_ifs
    · exact Or.inl rfl
    · exact Or.inr hp
  have hwal : (e.walNumber, e.wal) ∈ e'.openLogFiles := mem_openLogFiles.mpr (Or.inr rfl)
  refine ⟨le_rfl, fun q hq _ => ?_, fun q hq hlt => ?_, fun q hq _ => ?_, fun p hp hbuf => ?_,
    Or.inl (encodedBy_eq_nil (Or.inl rfl))⟩
  · rcases mem_openLogFiles.mp hq with hq | rfl
    · rcases hretired q hq with rfl | hq
      · exact ⟨_, hopen, rfl, (Shared.step_policy hstep).2, happended ▸ List.prefix_rfl, hle⟩
      · exact ⟨q, mem_openLogFiles.mpr (Or.inl hq), rfl, rfl, List.prefix_rfl, le_rfl⟩
    · exact ⟨_, mem_openLogFiles.mpr (Or.inr rfl), rfl, rfl, List.prefix_rfl, le_rfl⟩
  · rcases mem_openLogFiles.mp hq with hq | rfl
    · rcases hretired q hq with rfl | hq
      · exact absurd (hl.retired_lt hmem) hlt.not_gt
      · exact absurd (hl.retired_lt hq) hlt.not_gt
    · exact absurd hlt (lt_irrefl _)
  · rcases hretired q hq with rfl | hq
    · exact ⟨_, hmem, rfl, Shared.buf_step hstep happended⟩
    · exact ⟨q, hq, rfl, id⟩
  · rcases mem_openLogFiles.mp hp with hp | rfl
    · by_cases hpn : p.1 = number
      · obtain rfl := hl.eq_of_number (mem_openLogFiles.mpr (Or.inl hp)) hopen hpn
        rcases hwritten with heq | ⟨⟨fault, hwrite⟩, -⟩
        · exact Or.inr ⟨(number, wal), mem_openLogFiles.mpr
            (Or.inl (List.mem_map.mpr ⟨_, hp, if_pos rfl⟩)), rfl, heq⟩
        · exact Or.inl (horder fault hwrite hbuf)
      · exact Or.inr ⟨p, mem_openLogFiles.mpr
          (Or.inl (List.mem_map.mpr ⟨p, hp, if_neg hpn⟩)), rfl, rfl⟩
    · exact Or.inr ⟨_, hwal, rfl, rfl⟩

/-- A replaced log is dropped. -/
theorem Logs.advance_dropLog (hl : Logs dir e) {number : ℕ} {old : Shared}
    (hold : e.retired.find? (fun p => p.1 = number) = some (number, old))
    (horder : old.buf ≠ [] → e.Drained h number) :
    Advance e h { e with retired := e.retired.filter fun q => q.1 ≠ number } := by
  obtain ⟨hopen, hmem, hne⟩ := hl.find_retired hold
  have hsub : ∀ q, q ∈ Engine.openLogFiles
      { e with retired := e.retired.filter fun q => q.1 ≠ number } → q ∈ e.openLogFiles := by
    intro q hq
    exact mem_openLogFiles.mpr ((mem_openLogFiles.mp hq).imp_left List.mem_of_mem_filter)
  refine ⟨le_rfl, fun q hq _ => ?_, fun q hq hlt => ?_, fun q hq _ => ?_, fun p hp hbuf => ?_,
    Or.inl (encodedBy_eq_nil (Or.inl rfl))⟩
  · exact ⟨q, hsub q hq, rfl, rfl, List.prefix_rfl, le_rfl⟩
  · exact absurd (hl.number_le (hsub q hq)) hlt.not_ge
  · exact ⟨q, List.mem_of_mem_filter hq, rfl, id⟩
  · by_cases hpn : p.1 = number
    · obtain rfl := hl.eq_of_number hp hopen hpn
      exact Or.inl (horder hbuf)
    · refine Or.inr ⟨p, mem_openLogFiles.mpr ?_, rfl, rfl⟩
      exact (mem_openLogFiles.mp hp).imp_left fun hp =>
        List.mem_filter.mpr ⟨hp, decide_eq_true hpn⟩

/-- A rotation swaps the logs. -/
theorem Logs.advance_swap (hl : Logs dir e) {number : ℕ} {r : Recovered}
    (hrotating : e.rotating = some number)
    (hrecover : recover number (dir.logs.lookup number) e.wal.lastSeq = .ok r)
    (hwal : e'.wal = Shared.new e.config.sync r) (hnumber : e'.walNumber = number)
    (hretired : e'.retired = e.retired ++ [(e.walNumber, e.wal)]) : Advance e h e' := by
  have hlt := (hl.lt_rotating hrotating).1 _ hl.walNumber_mem
  have hopen : e'.openLogFiles = e.openLogFiles ++ [(number, Shared.new e.config.sync r)] := by
    rw [Engine.openLogFiles, hretired, hnumber, hwal]
    rfl
  refine ⟨hnumber ▸ hlt.le, fun q hq hle => ?_, fun q hq hgt => ?_, fun q hq hle => ?_,
    fun p hp _ => ?_, Or.inl (encodedBy_eq_nil (Or.inr ?_))⟩
  · rw [hopen, List.mem_append, List.mem_singleton] at hq
    rcases hq with hq | rfl
    · exact ⟨q, hq, rfl, rfl, List.prefix_rfl, le_rfl⟩
    · exact absurd hle hlt.not_ge
  · rw [hopen, List.mem_append, List.mem_singleton] at hq
    rcases hq with hq | rfl
    · exact absurd (hl.number_le hq) hgt.not_ge
    · obtain ⟨hrecords, -, hcontents, -, hbound, -⟩ := spec_of_recover hrecover
      refine ⟨rfl, fun v hv => hbound v ?_⟩
      rw [hrecords, ← hcontents]
      exact hv
  · rw [hretired, List.mem_append, List.mem_singleton] at hq
    rcases hq with hq | rfl
    · exact ⟨q, hq, rfl, id⟩
    · exact absurd hle (lt_irrefl _)
  · exact Or.inr ⟨p, hopen ▸ List.mem_append_left _ hp, rfl, rfl⟩
  · rw [hnumber]
    exact hlt.ne'

/-- **Every orderly step that writes in order advances the logs.** -/
theorem Logs.advance (hl : Logs dir e) {action : Action} (ho : e.Orderly action)
    (hw : e.WritesInOrder h action) (hm : Engine.Moves dir e action dir' e') : Advance e h e' := by
  have hside : ∀ {slot : Slot}, action.slot = some slot → Engine.JobSide slot e e' := hm.jobSide
  have hjob : ∀ {slot : Slot}, action.slot = some slot → Advance e h e' := fun hslot =>
    hl.advance_eq (hside hslot).wal (hside hslot).walNumber (hside hslot).retired
  cases hm with
  | write _ _ hwal | sync _ _ hwal | insert _ hwal =>
    exact hl.advance_wal (by simp) hwal rfl rfl
  | @wal t event wal hevent hwal =>
    refine hl.advance_wal (fun fault heq => ?_) hwal rfl rfl
    subst heq
    exact hw
  | leave | rotateNot | rotate | rotateWrite | rotateFail => exact hl.advance_eq rfl rfl rfl
  | rotateSwap hrotating hrecover => exact hl.advance_swap hrotating hrecover rfl rfl rfl
  | @oldWal number t event old wal hevent hold hwal =>
    refine hl.advance_oldWal ho hevent hold (fun fault heq => ?_) hwal
    subst heq
    exact hw _ (List.mem_of_find?_eq_some hold) rfl
  | dropLog hold _ =>
    exact hl.advance_dropLog hold (hw _ (List.mem_of_find?_eq_some hold) rfl)
  | take | plan | planNot | abandon | find | alloc | create | finish | rename | openOutput | ready
  | lock | createManifest | writeManifest | renameManifest | publish | unlinkLog | unlinkTable
  | done | fail => exact hjob rfl

/-! ### The mutations of the session -/

/-- The logs a flush is removing, or will once it has published, are among those replaced. -/
def JobPc.Replaces (replaced : List ℕ) : JobPc → Prop
  | .unlinking (.flush _) numbers => numbers ⊆ replaced
  | .committing ⟨.flush frozen, _, _, _⟩ _ .renamed => frozen.logs ⊆ replaced
  | _ => True

/-- Where the mutations of the session are.  Those a log has written come before every buffered
one. -/
structure Progress (dir : Dir) (e : Engine) (h : History) : Prop where
  opened : ∀ q ∈ e.openLogFiles, ∀ v ∈ contents q.2.opened.file, v.seq ≤ q.2.opened.lastSeq
  order : h.session.Pairwise fun p q => p.1 ≤ q.1 ∧ p.2.seq < q.2.seq
  bounds : ∀ p ∈ h.session, p.1 ≤ e.walNumber ∧ p.2.seq ≤ e.wal.lastSeq
  recorded : ∀ p ∈ h.session, p.1 ∉ h.replaced → p.1 ∈ e.liveLogs ∧ p.2 ∈ e.recordsOf dir p.1
  appended : ∀ p ∈ h.session, ∀ q ∈ e.openLogFiles, q.1 = p.1 → p.2 ∈ q.2.appended
  behind : ∀ p ∈ h.session, p.1 ∉ h.replaced → e.Reached p → e.Drained h p.1
  older : ∀ n ∈ h.replaced, n < e.walNumber
  /-- Flushes replace the oldest logs first. -/
  oldest : ∀ p ∈ h.session, ∀ n ∈ h.replaced, p.1 ≤ n → p.1 ∈ h.replaced
  removed : (e.jobs .flush).Replaces h.replaced

/-- What a log has written stays written. -/
theorem Advance.reached (ha : Advance e h e') {p : ℕ × Entry} (hp : p.1 ≤ e.walNumber)
    (hr : e.Reached p) : e'.Reached p := by
  intro q hq heq
  obtain ⟨x, hx, hxq, -, -, hwritten⟩ := ha.kept q hq (heq.trans_le hp)
  exact (hr x hx (hxq.trans heq)).trans hwritten

theorem Advance.drained (ha : Advance e h e') {h' : History} (hreplaced : h.replaced ⊆ h'.replaced)
    {n : ℕ} (hn : n ≤ e.walNumber) (hd : e.Drained h n) : e'.Drained h' n := by
  intro q hq hlt hnot
  obtain ⟨x, hx, hxq, hbuf⟩ := ha.buffers q hq (hlt.trans_le hn)
  exact hbuf (hd x hx (hxq.trans_lt hlt) fun hin => hnot (hreplaced (hxq ▸ hin)))

/-- A mutation that its log writes in a step has the logs before it drained. -/
theorem Advance.drained_of_reached (ha : Advance e h e') (hl : Logs dir e) (hp : Progress dir e h)
    {p : ℕ × Entry} (hmem : p ∈ h.session) (hnot : p.1 ∉ h.replaced) (hr : e'.Reached p) :
    e.Drained h p.1 := by
  by_cases hold : e.Reached p
  · exact hp.behind p hmem hnot hold
  · unfold Engine.Reached at hold
    push Not at hold
    obtain ⟨q, hq, hqp, hlt⟩ := hold
    have hcalm := (hl.calm q hq).1
    have hbuf : q.2.buf ≠ [] := fun hbuf => by
      have := (hcalm.inv.log.seq_bounds (hp.appended p hmem q hq hqp)).2
      have := hcalm.written_eq hbuf
      omega
    rcases ha.moved q hq hbuf with hd | ⟨x, hx, hxq, hwritten⟩
    · exact hqp ▸ hd
    · have := hr x hx (hxq.trans hqp)
      omega

/-- What a flush has replaced grows when it renames its manifest. -/
theorem observe_replaced (h : History) {action : Action} (hm : Engine.Moves dir e action dir' e') :
    (h.observe action e e').replaced = h.replaced
      ∨ ∃ job next f, e.jobs .flush = .committing job next .written ∧ job.target = .flush f
        ∧ (h.observe action e e').replaced = h.replaced ++ f.logs := by
  cases hm with
  | @renameManifest slot job next content hpc hcontent =>
    cases slot with
    | compact => exact Or.inl rfl
    | flush =>
      obtain ⟨target, todo, current, outputs⟩ := job
      cases target with
      | flush f =>
        refine Or.inr ⟨_, next, f, hpc, rfl, ?_⟩
        simp only [History.observe, hpc]
      | compact snapshot plan =>
        refine Or.inl ?_
        simp only [History.observe, hpc]
  | _ => exact Or.inl rfl

/-- The first of the logs are those of the flush that commits. -/
theorem Files.liveLogs_eq (hi : Files dir e) {job : Job} {next : Snapshot} {phase : CommitPhase}
    {f : Frozen} (hpc : e.jobs .flush = .committing job next phase)
    (htarget : job.target = .flush f) :
    ∃ init, e.state.frozen = init ++ [f]
      ∧ e.liveLogs = f.logs ++ (init.reverse.flatMap Frozen.logs ++ e.state.activeLogs) := by
  have hok := hi.jobs .flush
  rw [hpc] at hok
  obtain ⟨hj, hc, -⟩ := hok
  obtain ⟨-, hlast, -⟩ := hj.flush_output hc htarget
  obtain ⟨init, hinit⟩ := List.getLast?_eq_some_iff.mp hlast
  refine ⟨init, hinit, ?_⟩
  simp [Engine.liveLogs, hpc, hinit, JobPc.logsToRemove]

/-- Only a flush that is removing its logs takes one away. -/
theorem Files.liveLogs_step (hi : Files dir e) {action : Action}
    (hm : Engine.Moves dir e action dir' e') {n : ℕ} (hn : n ∈ e.liveLogs) :
    n ∈ e'.liveLogs ∨ n ∈ (e.jobs .flush).logsToRemove := by
  have hmem : ∀ e : Engine, n ∈ e.liveLogs ↔ n ∈ (e.jobs .flush).logsToRemove
      ∨ (∃ f ∈ e.state.frozen, n ∈ f.logs) ∨ n ∈ e.state.activeLogs := by
    intro e
    simp [Engine.liveLogs]
  rw [hmem] at hn ⊢
  have hside : ∀ {slot : Slot}, action.slot = some slot → Engine.JobSide slot e e' := hm.jobSide
  have hkept : e'.state.frozen = e.state.frozen → e'.state.activeLogs = e.state.activeLogs →
      (n ∈ (e'.jobs .flush).logsToRemove ∨ (∃ f ∈ e'.state.frozen, n ∈ f.logs)
        ∨ n ∈ e'.state.activeLogs) ∨ n ∈ (e.jobs .flush).logsToRemove := by
    intro hfrozen hactive
    rw [hfrozen, hactive]
    exact hn.elim Or.inr fun hn => Or.inl (Or.inr hn)
  cases hm with
  | rotateSwap =>
    rcases hn with hn | ⟨f, hf, hn⟩ | hn
    · exact Or.inr hn
    · exact Or.inl (Or.inr (Or.inl ⟨f, List.mem_cons_of_mem _ hf, hn⟩))
    · exact Or.inl (Or.inr (Or.inl ⟨_, List.mem_cons_self, hn⟩))
  | @publish slot job next hpc hrotating =>
    obtain ⟨target, todo, current, outputs⟩ := job
    cases target with
    | compact snapshot plan => exact hkept rfl (hside rfl).activeLogs
    | flush frozen =>
      have hok := hi.jobs slot
      rw [hpc] at hok
      obtain ⟨rfl, -⟩ := hok.1.flush_output hok.2.1 rfl
      obtain ⟨init, hinit, -⟩ := hi.liveLogs_eq hpc rfl
      -- the logs of the memtable published pass to the flush that removes them
      rcases hn with hn | ⟨f, hf, hn⟩ | hn
      · exact Or.inr hn
      · rw [hinit, List.mem_append, List.mem_singleton] at hf
        rcases hf with hf | rfl
        · refine Or.inl (Or.inr (Or.inl ⟨f, ?_, hn⟩))
          change f ∈ e.state.frozen.dropLast
          rw [hinit, List.dropLast_concat]
          exact hf
        · refine Or.inl (Or.inl ?_)
          rw [show Engine.jobs _ .flush = _ from Engine.setJob_self e .flush _]
          exact hn
      · exact Or.inl (Or.inr (Or.inr hn))
  | write | sync | wal | insert | leave | rotateNot | rotate | rotateWrite | rotateFail | oldWal
  | dropLog | planNot | take | plan | abandon | find | alloc | create | finish | rename | openOutput
  | ready | lock | createManifest | writeManifest | renameManifest | unlinkLog | unlinkTable | done
  | fail => exact hkept rfl rfl

theorem JobPc.Replaces.mono {replaced replaced' : List ℕ} (hsub : replaced ⊆ replaced') {pc : JobPc}
    (hpc : pc.Replaces replaced) : pc.Replaces replaced' := by
  unfold JobPc.Replaces at hpc ⊢
  split
  · exact List.Subset.trans hpc hsub
  · exact List.Subset.trans hpc hsub
  · trivial

theorem JobPc.Replaces.logsToRemove {replaced : List ℕ} {pc : JobPc} (hpc : pc.Replaces replaced) :
    pc.logsToRemove ⊆ replaced := by
  unfold JobPc.logsToRemove
  split
  · exact hpc
  · exact List.nil_subset _

/-- The logs a flush is removing have been replaced. -/
theorem Progress.removed_step (hp : Progress dir e h) (hl : Logs dir e) {action : Action}
    (hm : Engine.Moves dir e action dir' e')
    (hsub : h.replaced ⊆ (h.observe action e e').replaced) :
    (e'.jobs .flush).Replaces (h.observe action e e').replaced := by
  have hold := hp.removed.mono hsub
  have hside : ∀ {slot : Slot}, action.slot = some slot → Engine.JobSide slot e e' := hm.jobSide
  -- a task that goes on short of the rename of its manifest and of its publication
  have htask : ∀ {slot : Slot} {pc : JobPc}, action.slot = some slot → e'.jobs slot = pc →
      pc.Replaces (h.observe action e e').replaced →
      (e'.jobs .flush).Replaces (h.observe action e e').replaced := by
    intro slot pc hslot hjob hpc
    cases slot with
    | compact => rwa [(hside hslot).jobs .flush (by simp)]
    | flush => rwa [hjob]
  cases hm with
  | write | sync | wal | insert | leave | rotateNot | rotate | rotateWrite | rotateSwap | rotateFail
  | oldWal | dropLog | planNot => exact hold
  | take | plan | abandon | find | alloc | create | finish | rename | openOutput | ready | done
  | fail | unlinkTable => exact htask rfl (Engine.setJob_self ..) trivial
  | @lock _ job | @createManifest _ job | @writeManifest _ job =>
    refine htask rfl (Engine.setJob_self ..) ?_
    obtain ⟨_ | _, _, _, _⟩ := job <;> trivial
  | @renameManifest slot job next content hpc hcontent =>
    cases slot with
    | compact => exact hold
    | flush =>
      rw [Engine.setJob_self]
      obtain ⟨f | _, todo, current, outputs⟩ := job
      · simp only [History.observe, hpc]
        exact List.subset_append_right _ _
      · trivial
  | @publish slot job next hpc hrotating =>
    cases slot with
    | compact => exact hold
    | flush =>
      refine htask rfl (Engine.setJob_self e .flush _) ?_
      rw [hpc] at hold
      obtain ⟨_ | _, _, _, _⟩ := job
      · exact hold
      · trivial
  | @unlinkLog slot frozen number rest hpc hlog =>
    obtain rfl := hl.eq_flush hpc
    refine htask rfl (Engine.setJob_self ..) ?_
    rw [hpc] at hold
    exact List.Subset.trans (List.subset_cons_self _ _) hold

/-- **Every orderly step that writes in order keeps the mutations in order.** -/
theorem Progress.step (hp : Progress dir e h) (hl : Logs dir e) (hi : Files dir e)
    (hr : dir.LogsReadable) {action : Action} (ho : e.Orderly action)
    (hw : e.WritesInOrder h action)
    (hm : Engine.Moves dir e action dir' e') : Progress dir' e' (h.observe action e e') := by
  have ha := hl.advance ho hw hm
  obtain ⟨hl', hg⟩ := hl.step hi hr ho hm
  obtain ⟨hlast, hnew⟩ := hl.lastSeq_step ho hm
  have hsub : h.replaced ⊆ (h.observe action e e').replaced := by
    rcases observe_replaced h hm with heq | ⟨_, _, f, -, -, heq⟩
    · rw [heq]
      exact List.Subset.refl _
    · rw [heq]
      exact List.subset_append_left _ _
  have hcurrent : (e'.walNumber, e'.wal) ∈ e'.openLogFiles := mem_openLogFiles.mpr (Or.inr rfl)
  -- a mutation of the session is an old one, or the one just encoded
  have hsession : ∀ p ∈ (h.observe action e e').session, p ∈ h.session
      ∨ p.1 = e.walNumber ∧ e'.walNumber = e.walNumber ∧ p.2 ∈ e.encodedBy e'
        ∧ p.2 ∈ e'.wal.appended ∧ e'.wal.written < p.2.seq := by
    intro p hmem
    rw [observe_session_eq] at hmem
    refine (List.mem_append.mp hmem).imp_right fun hmem => ?_
    obtain ⟨v, hv, rfl⟩ := List.mem_map.mp hmem
    rcases ha.encoded with hnil | ⟨x, hx, hnumber, happended, hwritten⟩
    · rw [hnil] at hv
      cases hv
    · obtain rfl : v = x := by
        rw [hx] at hv
        exact List.mem_singleton.mp hv
      exact ⟨rfl, hnumber, hv, happended, hwritten⟩
  have holder : ∀ n ∈ (h.observe action e e').replaced, n < e.walNumber := by
    rcases observe_replaced h hm with heq | ⟨job, next, f, hpc, htarget, heq⟩
    · rw [heq]
      exact hp.older
    · obtain ⟨init, hinit, -⟩ := hi.liveLogs_eq hpc htarget
      intro n hn
      rw [heq, List.mem_append] at hn
      refine hn.elim (hp.older n) fun hn => hl.lt_walNumber (List.mem_append_right _ ?_)
      exact List.mem_flatMap.mpr ⟨f, by simp [hinit], hn⟩
  refine
    { opened := fun q hq v hv => ?_
      order := ?_
      bounds := fun p hmem => ?_
      recorded := fun p hmem hnot => ?_
      appended := fun p hmem q hq hqp => ?_
      behind := fun p hmem hnot hreached => ?_
      older := fun n hn => (holder n hn).trans_le ha.number
      oldest := fun p hmem n hn hle => ?_
      removed := hp.removed_step hl hm hsub }
  · by_cases hle : q.1 ≤ e.walNumber
    · obtain ⟨x, hx, -, hopened, -⟩ := ha.kept q hq hle
      rw [hopened] at hv ⊢
      exact hp.opened x hx v hv
    · exact (ha.new q hq (not_le.mp hle)).2 v hv
  · rw [observe_session_eq]
    refine List.pairwise_append.mpr ⟨hp.order, ?_, fun p hmem q hq => ?_⟩
    · rcases ha.encoded with hnil | ⟨x, hx, -⟩
      · rw [hnil]
        exact List.Pairwise.nil
      · rw [hx]
        exact List.pairwise_singleton _ _
    · obtain ⟨v, hv, rfl⟩ := List.mem_map.mp hq
      exact ⟨(hp.bounds p hmem).1, (hp.bounds p hmem).2.trans_lt (hnew v hv).1⟩
  · rcases hsession p hmem with hmem | ⟨hnumber, -, hv, -⟩
    · exact ⟨(hp.bounds p hmem).1.trans ha.number, (hp.bounds p hmem).2.trans hlast⟩
    · exact ⟨hnumber ▸ ha.number, (hnew _ hv).2⟩
  · rcases hsession p hmem with hmem | ⟨hnumber, hsame, -, happended, -⟩
    · obtain ⟨hlive, hrec⟩ := hp.recorded p hmem fun hin => hnot (hsub hin)
      have hlive' := (hi.liveLogs_step hm hlive).resolve_right fun hin =>
        hnot (hsub (hp.removed.logsToRemove hin))
      refine ⟨hlive', ?_⟩
      rw [hg.kept _ hlive hlive']
      exact List.mem_append_left _ hrec
    · rw [hnumber, ← hsame]
      refine ⟨hl'.walNumber_mem, ?_⟩
      rw [hl'.recordsOf_open hcurrent]
      exact List.mem_append_right _ happended
  · rcases hsession p hmem with hmem | ⟨hnumber, hsame, -, happended, -⟩
    · obtain ⟨x, hx, hxq, -, hprefix', -⟩ := ha.kept q hq (hqp.trans_le (hp.bounds p hmem).1)
      exact hprefix'.subset (hp.appended p hmem x hx (hxq.trans hqp))
    · obtain rfl := hl'.eq_of_number hq hcurrent (hqp.trans (hnumber.trans hsame.symm))
      exact happended
  · rcases hsession p hmem with hmem | ⟨hnumber, hsame, -, -, hwritten⟩
    · exact ha.drained hsub (hp.bounds p hmem).1
        (ha.drained_of_reached hl hp hmem (fun hin => hnot (hsub hin)) hreached)
    · exact absurd (hreached _ hcurrent (hsame.trans hnumber.symm)) hwritten.not_ge
  · rcases hsession p hmem with hmem | ⟨hnumber, -⟩
    swap
    · exact absurd (hnumber ▸ hle) (holder n hn).not_ge
    by_cases hin : p.1 ∈ h.replaced
    · exact hsub hin
    · rcases observe_replaced h hm with heq | ⟨job, next, f, hpc, htarget, heq⟩
      · rw [heq] at hn ⊢
        exact hp.oldest p hmem n hn hle
      · -- the logs of this flush are the first ones there are
        rw [heq, List.mem_append] at hn ⊢
        rcases hn with hn | hn
        · exact Or.inl (hp.oldest p hmem n hn hle)
        · obtain ⟨init, -, hlogs⟩ := hi.liveLogs_eq hpc htarget
          have hlive := (hp.recorded p hmem hin).1
          have hsorted := (List.pairwise_append.mp hl.sorted).1
          rw [hlogs] at hlive hsorted
          refine Or.inr ((List.mem_append.mp hlive).resolve_right fun hrest => ?_)
          exact absurd ((List.pairwise_append.mp hsorted).2.2 n hn p.1 hrest) hle.not_gt

theorem OpenedFrom.progress {config : Config} (ho : OpenedFrom dir config dir' e)
    (start : Bytes → Option Bytes) : Progress dir' e (History.fresh start) := by
  obtain ⟨r, heq, ⟨lastSeq, hrecover⟩, -, -⟩ := ho.fresh
  obtain ⟨hrecords, -, hcontents, -, hbound, -⟩ := spec_of_recover hrecover
  have hjobs : e.jobs = fun _ => .idle := by rw [heq]; rfl
  have hopen : e.openLogFiles = [(e.walNumber, Shared.new config.sync r)] := by rw [heq]; rfl
  refine
    { opened := fun q hq v hv => ?_
      order := List.Pairwise.nil
      bounds := fun p hmem => nomatch hmem
      recorded := fun p hmem => nomatch hmem
      appended := fun p hmem => nomatch hmem
      behind := fun p hmem => nomatch hmem
      older := fun n hn => nomatch hn
      oldest := fun p hmem => nomatch hmem
      removed := by rw [hjobs]; trivial }
  rw [hopen, List.mem_singleton] at hq
  subst hq
  refine hbound v ?_
  rw [hrecords, ← hcontents]
  exact hv

/-! ### The calls of `Engine::sync` -/

/-- What the calls of `Engine::sync` wait for, and what those that returned have covered. -/
structure SyncCalls (e : Engine) (h : History) : Prop where
  logged : ∀ v ∈ e.wal.appended, (e.walNumber, v) ∈ h.session
  inserted : ∀ v ∈ h.inserted, v ∈ h.session.map Prod.snd
  calls : ∀ call ∈ h.syncs, call.1 ∈ e.readers ∧ (∀ v ∈ call.2, v ∈ h.session.map Prod.snd)
    ∧ ∀ seq ∈ (e.wal.thread (.client call.1)).awaits, ∀ v ∈ call.2, v.seq ≤ seq
  synced : ∀ v ∈ h.synced, ∃ n, (n, v) ∈ h.session ∧ (n ∈ h.replaced ∨ e.Reached (n, v))

/-- A client inside the log waits for what it waited for. -/
theorem Engine.Moves.awaits {action : Action} (hm : Engine.Moves dir e action dir' e')
    {client : ℕ} (hclient : client ∈ e.readers) {seq : ℕ}
    (hseq : seq ∈ (e'.wal.thread (.client client)).awaits) :
    seq ∈ (e.wal.thread (.client client)).awaits := by
  -- a thread that moves other than by starting to wait
  have hwal : ∀ {t : Thread} {event : Event} {wal : Shared}, e.wal.step (t, event) = some wal →
      (event = .sync → t ≠ .client client) → seq ∈ (wal.thread (.client client)).awaits →
      seq ∈ (e.wal.thread (.client client)).awaits := by
    intro t event wal hstep hsync hseq
    by_cases ht : Thread.client client = t
    · subst ht
      exact (Shared.awaits_step (Shared.moves_of_step hstep) hseq).resolve_right
        fun h => hsync h.1 rfl
    · rwa [Shared.step_thread hstep ht] at hseq
  cases hm with
  | write _ _ hstep | insert _ hstep => exact hwal hstep (fun h => nomatch h) hseq
  | sync _ hnot hstep =>
    refine hwal hstep (fun _ heq => hnot ?_) hseq
    rwa [Thread.client.inj heq]
  | wal hevent hstep =>
    refine hwal hstep (fun hsync heq => ?_) hseq
    subst hsync heq
    cases hevent
  | rotateSwap => cases hseq
  | _ => exact hseq

theorem syncReturns_eq_true {client : ℕ} {action : Action}
    (hreturns : e.syncReturns client action = true) :
    action = .wal (.client client) .check ∧ ∃ seq, e.wal.thread (.client client) = .waiting seq none
      ∧ seq ≤ e.wal.durable := by
  unfold Engine.syncReturns at hreturns
  split at hreturns
  · rename_i thread
    split at hreturns
    · rename_i c seq hpc
      obtain ⟨hc, hle⟩ := (Bool.and_eq_true _ _).mp hreturns
      obtain rfl := of_decide_eq_true hc
      exact ⟨rfl, seq, hpc, of_decide_eq_true hle⟩
    · cases hreturns
  · cases hreturns

/-- A call of `Engine::sync` that returns has covered what was inserted before it began. -/
theorem SyncCalls.reached (hs : SyncCalls e h) (hp : Progress dir e h) (hl : Logs dir e)
    (hd : e.Drained h e.walNumber) {call : ℕ × List Entry} (hcall : call ∈ h.syncs) {seq : ℕ}
    (hpc : e.wal.thread (.client call.1) = .waiting seq none) (hle : seq ≤ e.wal.durable)
    {v : Entry} (hv : v ∈ call.2) :
    ∃ n, (n, v) ∈ h.session ∧ (n ∈ h.replaced ∨ e.Reached (n, v)) := by
  obtain ⟨-, hsession, hawaits⟩ := hs.calls call hcall
  obtain ⟨⟨n, w⟩, hmem, rfl⟩ := List.mem_map.mp (hsession v hv)
  refine ⟨n, hmem, or_iff_not_imp_left.mpr fun hnot q hq hqn => ?_⟩
  have hcalm := (hl.calm q hq).1
  rcases mem_openLogFiles.mp hq with hretired | rfl
  · -- a log that was replaced has written everything
    have hbuf := hd q hretired (hl.retired_lt hretired) (hqn ▸ hnot)
    rw [hcalm.written_eq hbuf]
    exact (hcalm.inv.log.seq_bounds (hp.appended _ hmem q hq hqn)).2
  · exact ((hawaits seq (by rw [hpc]; rfl) _ hv).trans hle).trans hcalm.inv.durable_le

/-- **Every orderly step that writes in order keeps what calls of `Engine::sync` cover.** -/
theorem SyncCalls.step (hs : SyncCalls e h) (hp : Progress dir e h) (hl : Logs dir e)
    {action : Action} (ho : e.Orderly action) (hw : e.WritesInOrder h action)
    (hm : Engine.Moves dir e action dir' e') : SyncCalls e' (h.observe action e e') := by
  have ha := hl.advance ho hw hm
  have hcalm := hl.calm_wal
  have hold : ∀ p ∈ h.session, p ∈ (h.observe action e e').session := fun p hmem => by
    rw [observe_session_eq]
    exact List.mem_append_left _ hmem
  have hmono : ∀ v ∈ h.session.map Prod.snd, v ∈ (h.observe action e e').session.map Prod.snd :=
    fun v hv => by
      obtain ⟨p, hmem, rfl⟩ := List.mem_map.mp hv
      exact List.mem_map_of_mem (hold p hmem)
  refine ⟨fun v hv => ?_, fun v hv => ?_, fun call hcall => ?_, fun v hv => ?_⟩
  · -- the current log appends to the session, and a new one has appended nothing
    have hmem : (e'.walNumber, e'.wal) ∈ e'.openLogFiles := mem_openLogFiles.mpr (Or.inr rfl)
    rcases ha.number.eq_or_lt with hnumber | hlt
    · obtain ⟨q, hq, hqn, -, happended, -⟩ := ha.kept _ hmem hnumber.ge
      obtain rfl := hl.eq_of_number hq (mem_openLogFiles.mpr (Or.inr rfl)) (hqn.trans hnumber.symm)
      rw [observe_session_eq, ← hnumber, Engine.encodedBy, if_pos hnumber.symm]
      obtain ⟨new, hnew⟩ := happended
      dsimp only at hnew
      rw [← hnew] at hv ⊢
      rw [List.drop_left]
      rcases List.mem_append.mp hv with hv | hv
      · exact List.mem_append_left _ (hs.logged v hv)
      · exact List.mem_append_right _ (List.mem_map_of_mem hv)
    · have hnone := (ha.new _ hmem hlt).1
      dsimp only at hnone
      rw [hnone] at hv
      cases hv
  · suffices hall : ∀ v ∈ (h.observe action e e').inserted, v ∈ h.session.map Prod.snd from
      hmono v (hall v hv)
    cases hm with
    | @insert client entry wal hthread hwal =>
      simp only [History.observe, hthread]
      intro v hv
      rcases List.mem_append.mp hv with hv | hv
      · exact hs.inserted v hv
      · rw [List.mem_singleton.mp hv]
        have hreturned : entry ∈ e.wal.returned := hcalm.inv.fact_of_eq hthread
        exact List.mem_map_of_mem (hs.logged entry (hcalm.inv.done entry hreturned).1)
    | _ => exact hs.inserted
  · -- a call that goes on waits for what it waited for
    have hkept : call ∈ h.syncs → call.1 ∈ e'.readers → call.1 ∈ e'.readers
        ∧ (∀ v ∈ call.2, v ∈ (h.observe action e e').session.map Prod.snd)
        ∧ ∀ seq ∈ (e'.wal.thread (.client call.1)).awaits, ∀ v ∈ call.2, v.seq ≤ seq := by
      intro hcall hreader
      obtain ⟨hin, hsession, hawaits⟩ := hs.calls call hcall
      exact ⟨hreader, fun v hv => hmono v (hsession v hv),
        fun seq hseq => hawaits seq (hm.awaits hin hseq)⟩
    cases hm with
    | write => exact hkept hcall (List.mem_cons_of_mem _ (hs.calls call hcall).1)
    | @sync client wal hrotating hclient hwal =>
      rcases List.mem_cons.mp hcall with rfl | hcall
      · refine ⟨List.mem_cons_self, fun v hv => hmono v (hs.inserted v hv), fun seq hseq v hv => ?_⟩
        rcases Shared.awaits_step (Shared.moves_of_step hwal) hseq with hseq | ⟨-, rfl⟩
        · rw [hl.clients client hclient] at hseq
          cases hseq
        · obtain ⟨p, hmem, rfl⟩ := List.mem_map.mp (hs.inserted v hv)
          exact (hp.bounds p hmem).2
      · exact hkept hcall (List.mem_cons_of_mem _ (hs.calls call hcall).1)
    | @leave client _ _ =>
      obtain ⟨hcall, hne⟩ := List.mem_filter.mp hcall
      exact hkept hcall ((List.mem_erase_of_ne (of_decide_eq_true hne)).mpr (hs.calls call hcall).1)
    | _ => exact hkept hcall (hs.calls call hcall).1
  · -- what a call that returns waited for has reached its file, or its log was replaced
    have hcovered : ∃ n, (n, v) ∈ h.session ∧ (n ∈ h.replaced ∨ e.Reached (n, v)) := by
      rcases List.mem_append.mp hv with hv | hv
      · exact hs.synced v hv
      · obtain ⟨call, hcall, hv⟩ := List.mem_flatMap.mp hv
        obtain ⟨hsync, hreturns⟩ := List.mem_filter.mp hcall
        obtain ⟨haction, seq, hpc, hle⟩ := syncReturns_eq_true hreturns
        rw [haction] at hreturns hw
        exact hs.reached hp hl (hw hreturns) hsync hpc hle hv
    obtain ⟨n, hmem, hn⟩ := hcovered
    refine ⟨n, hold _ hmem, hn.imp (fun hn => ?_) (ha.reached (hp.bounds _ hmem).1)⟩
    rcases observe_replaced h hm with heq | ⟨_, _, f, -, -, heq⟩
    · rwa [heq]
    · rw [heq]
      exact List.mem_append_left _ hn

theorem OpenedFrom.syncCalls {config : Config} (ho : OpenedFrom dir config dir' e)
    (start : Bytes → Option Bytes) : SyncCalls e (History.fresh start) := by
  obtain ⟨r, heq, -⟩ := ho.fresh
  refine ⟨fun v hv => ?_, fun v hv => (nomatch hv), fun call hcall => (nomatch hcall),
    fun v hv => (nomatch hv)⟩
  rw [heq] at hv
  cases hv

/-! ### What a kill leaves -/

/-- The elements with a property that goes down a list are the first ones. -/
theorem exists_filter_eq_take {α : Type*} {P : α → Bool} {l : List α}
    (hl : l.Pairwise fun a b => P b = true → P a = true) : ∃ n, l.filter P = l.take n := by
  induction hl with
  | nil => exact ⟨0, rfl⟩
  | @cons a l hfirst _ ih =>
    by_cases ha : P a = true
    · obtain ⟨n, hn⟩ := ih
      exact ⟨n + 1, by rw [List.filter_cons_of_pos ha, hn, List.take_succ_cons]⟩
    · refine ⟨0, ?_⟩
      rw [List.filter_cons_of_neg ha, List.take_zero, List.filter_eq_nil_iff]
      exact fun b hb hPb => ha (hfirst b hb hPb)

/-- What is left of a mutation whose log was closed. -/
theorem Progress.survives_closed (hp : Progress dir e h) (hl : Logs dir e) (cut : ℕ → ℕ)
    {p : ℕ × Entry} (hmem : p ∈ h.session) (hnot : p.1 ∉ h.replaced)
    (hclosed : ∀ q ∈ e.openLogFiles, q.1 ≠ p.1) : h.survives (e.killed dir cut) p = true := by
  have hrec := (hp.recorded p hmem hnot).2
  rw [recordsOf_closed hclosed] at hrec
  rw [History.survives, decide_eq_true_iff, (hl.lookup_killed cut).2.1 _ hclosed]
  exact Or.inr hrec

/-- What is left of a mutation whose log is open: the log has written it, or was caught doing so. -/
theorem Progress.survives_open (hp : Progress dir e h) (hl : Logs dir e) (cut : ℕ → ℕ)
    {q : ℕ × Shared} (hq : q ∈ e.openLogFiles) :
    ∃ j, q.2.taken ≤ j ∧ (q.2.buf.take (cut q.1) = [] → j = q.2.taken)
      ∧ ∀ p ∈ h.session, q.1 = p.1 → p.1 ∉ h.replaced →
        (h.survives (e.killed dir cut) p = true ↔ p.2.seq ≤ q.2.opened.lastSeq + j) := by
  have hcalm := (hl.calm q hq).1
  have hleft : ∀ j, contents (q.2.file ++ q.2.buf.take (cut q.1))
        = contents q.2.opened.file ++ q.2.appended.take j →
      ∀ p ∈ h.session, q.1 = p.1 → p.1 ∉ h.replaced →
        (h.survives (e.killed dir cut) p = true ↔ p.2.seq ≤ q.2.opened.lastSeq + j) := by
    intro j hcontents p hmem hqp hnot
    have happended := hp.appended p hmem q hq hqp
    have hpresent := hl.present _ (hp.recorded p hmem hnot).1
    rw [← hqp] at hpresent hnot
    rw [History.survives, decide_eq_true_iff, ← hqp, or_iff_right hnot,
      (hl.lookup_killed cut).2.2 q hq hpresent, Option.getD_some, hcontents, List.mem_append]
    constructor
    · rintro (hopened | htaken)
      · have := hp.opened q hq _ hopened
        omega
      · rw [← (Log.filter_seq_le hcalm.inv.log.seqs j).1, List.mem_filter] at htaken
        exact of_decide_eq_true htaken.2
    · exact fun hle => Or.inr (hcalm.inv.log.mem_take happended hle)
  by_cases hnone : q.2.buf.take (cut q.1) = []
  · refine ⟨q.2.taken, le_rfl, fun _ => rfl, hleft _ ?_⟩
    rw [hnone, List.append_nil]
    exact hcalm.intact_file.2
  · obtain ⟨j, hj, hcontents⟩ := hcalm.contents_cut (cut q.1)
    exact ⟨j, hj, fun h => absurd h hnone, hleft j hcontents⟩

/-- A mutation that its log has written survives. -/
theorem Progress.survives_reached (hp : Progress dir e h) (hl : Logs dir e) (cut : ℕ → ℕ)
    {p : ℕ × Entry} (hmem : p ∈ h.session) (hr : p.1 ∈ h.replaced ∨ e.Reached p) :
    h.survives (e.killed dir cut) p = true := by
  by_cases hin : p.1 ∈ h.replaced
  · rw [History.survives, decide_eq_true_iff]
    exact Or.inl hin
  · by_cases hopen : ∃ q ∈ e.openLogFiles, q.1 = p.1
    · obtain ⟨q, hq, hqp⟩ := hopen
      obtain ⟨j, hj, -, hiff⟩ := hp.survives_open hl cut hq
      have := (hl.calm q hq).1.inv.log.add_taken
      have := hr.resolve_left hin q hq hqp
      exact (hiff p hmem hqp hin).mpr (by omega)
    · exact hp.survives_closed hl cut hmem hin fun q hq hqp => hopen ⟨q, hq, hqp⟩

/-- A mutation of which a kill leaves anything has the logs before it drained. -/
theorem Progress.drained_of_survives (hp : Progress dir e h) (hl : Logs dir e) {cut : ℕ → ℕ}
    (hcut : ∀ q ∈ e.openLogFiles, q.2.buf.take (cut q.1) ≠ [] → e.Drained h q.1)
    {p : ℕ × Entry} (hmem : p ∈ h.session) (hnot : p.1 ∉ h.replaced)
    (hs : h.survives (e.killed dir cut) p = true) : e.Drained h p.1 := by
  by_cases hr : e.Reached p
  · exact hp.behind p hmem hnot hr
  · unfold Engine.Reached at hr
    push Not at hr
    obtain ⟨q, hq, hqp, hlt⟩ := hr
    obtain ⟨j, -, hnone, hiff⟩ := hp.survives_open hl cut hq
    have hle := (hiff p hmem hqp hnot).mp hs
    have htaken := (hl.calm q hq).1.inv.log.add_taken
    refine hqp ▸ hcut q hq fun h => ?_
    have := hnone h
    omega

/-- **Survival goes down the session**: what is before a survivor survives. -/
theorem Progress.survives_before (hp : Progress dir e h) (hl : Logs dir e) {cut : ℕ → ℕ}
    (hcut : ∀ q ∈ e.openLogFiles, q.2.buf.take (cut q.1) ≠ [] → e.Drained h q.1) :
    h.session.Pairwise fun p q => h.survives (e.killed dir cut) q = true →
      h.survives (e.killed dir cut) p = true := by
  refine hp.order.imp_of_mem fun {p q} hpm hqm hpq hq => ?_
  by_cases hin : p.1 ∈ h.replaced
  · exact hp.survives_reached hl cut hpm (Or.inl hin)
  have hqin : q.1 ∉ h.replaced := fun h => hin (hp.oldest p hpm _ h hpq.1)
  by_cases hopen : ∃ x ∈ e.openLogFiles, x.1 = p.1
  swap
  · exact hp.survives_closed hl cut hpm hin fun x hx hxp => hopen ⟨x, hx, hxp⟩
  obtain ⟨x, hx, hxp⟩ := hopen
  rcases hpq.1.eq_or_lt with heq | hlt
  · -- in one log the records are written in order
    obtain ⟨j, -, -, hiff⟩ := hp.survives_open hl cut hx
    rw [hiff q hqm (hxp.trans heq) hqin] at hq
    exact (hiff p hpm hxp hin).mpr (hpq.2.le.trans hq)
  · refine hp.survives_reached hl cut hpm (Or.inr fun y hy hyp => ?_)
    obtain rfl := hl.eq_of_number hx hy (hxp.trans hyp.symm)
    have hretired : x ∈ e.retired := (mem_openLogFiles.mp hx).resolve_right fun hcur => by
      have := (hp.bounds q hqm).1
      rw [hcur] at hxp
      dsimp only at hxp
      omega
    have hcalm := (hl.calm x hx).1
    have hbuf := hp.drained_of_survives hl hcut hqm hqin hq x hretired (hxp ▸ hlt) (hxp ▸ hin)
    rw [hcalm.written_eq hbuf]
    exact (hcalm.inv.log.seq_bounds (hp.appended p hpm x hx hxp)).2

end

/-! ### Every run -/

/-- Whether a step is orderly and writes in order. -/
def World.WritesInOrder (w : World) (action : Action) : Prop :=
  ∀ e, w.engine = some e → e.Orderly action ∧ e.WritesInOrder w.history action

/-- The mutations of the session are where they should be. -/
def World.Progresses (w : World) : Prop :=
  ∀ e, w.engine = some e → Logs w.dir e ∧ Progress w.dir e w.history ∧ SyncCalls e w.history

theorem progresses_of_reachable {w : World}
    (hw : Reachable World.step World.WritesInOrder (· = World.initial) w) : w.Progresses := by
  refine World.engine_invariant (fun dir e h => Logs dir e ∧ Progress dir e h ∧ SyncCalls e h)
    (fun _ _ _ _ hopened => ⟨hopened.logs.1, hopened.progress _, hopened.syncCalls _⟩)
    (fun w e _ _ _ hreach he hall hok hmoves => ?_) hw
  obtain ⟨hi, hfiles⟩ := (consistent_of_reachable hreach).opened he
  obtain ⟨ho, hwrites⟩ := hok e he
  obtain ⟨hl, hp, hs⟩ := hall
  exact ⟨(hl.step hi hfiles.readable ho hmoves).1, hp.step hl hi hfiles.readable ho hwrites hmoves,
    hs.step hp hl ho hwrites hmoves⟩

/-- **A kill loses the end of the session only.**  In every run in which no operation on a log fails
and the logs write in order, a kill that catches no log writing before its turn leaves the first `n`
mutations of the session, in the order of their numbers, and every mutation inserted before the
start of a call of `Engine::sync` that returned `Ok` is among them. -/
theorem survivors_eq_take {w : World}
    (hw : Reachable World.step World.WritesInOrder (· = World.initial) w) {e : Engine}
    (he : w.engine = some e) {cut : ℕ → ℕ}
    (hcut : ∀ q ∈ e.openLogFiles, q.2.buf.take (cut q.1) ≠ [] → e.Drained w.history q.1) :
    (w.history.session.map Prod.snd).Pairwise (fun v u => v.seq < u.seq)
      ∧ ∃ n, w.history.session.filter (w.history.survives (e.killed w.dir cut))
          = w.history.session.take n
        ∧ ∀ v ∈ w.history.synced, v ∈ (w.history.session.take n).map Prod.snd := by
  obtain ⟨hl, hp, hs⟩ := progresses_of_reachable hw e he
  obtain ⟨n, hn⟩ := exists_filter_eq_take (hp.survives_before hl hcut)
  refine ⟨List.pairwise_map.mpr (hp.order.imp And.right), n, hn, fun v hv => ?_⟩
  obtain ⟨number, hmem, hreached⟩ := hs.synced v hv
  rw [← hn]
  exact List.mem_map.mpr
    ⟨_, List.mem_filter.mpr ⟨hmem, hp.survives_reached hl cut hmem hreached⟩, rfl⟩

/-- A store none of whose replaced logs has anything in its buffer writes in order. -/
theorem writesInOrder_of_drained {w : World} {action : Action}
    (h : (action.faultless && w.engine.all fun e => e.retired.all fun p => p.2.buf = []) = true) :
    w.WritesInOrder action := by
  intro e he
  rw [he, Option.all_some, Bool.and_eq_true, List.all_eq_true] at h
  have hdrained : ∀ number, e.Drained w.history number := fun number p hp _ _ =>
    of_decide_eq_true (h.2 p hp)
  constructor
  · cases action with
    | fail => cases h.1
    | _ => exact h.1
  · unfold Engine.WritesInOrder
    split
    · exact fun _ => hdrained _
    · exact fun _ => hdrained _
    · exact fun _ _ _ _ => hdrained _
    · exact fun _ _ _ _ => hdrained _
    · trivial

/-- A call of `sync` that has something to flush. -/
def Action.flushingSync (client : ℕ) : List Action :=
  let t := Wal.Thread.client client
  [.sync client, .wal t .check, .wal t (.write none), .wal t .beginFlush, .wal t (.endFlush true),
    .wal t .publish, .wal t .check, .leave client]

/-- A write that is synced, a rotation, and a write into the new log. -/
def syncedThenRotated : List Action :=
  List.flatten [[.openStore ⟨.interval, 100, 4, 10⟩], Action.bufferedWrite 1 [1] (some [7]),
    Action.flushingSync 1, [.rotate 0, .rotateSwap], Action.bufferedWrite 1 [2] (some [8])]

/-- The kill catches the new log in the middle of its record. -/
theorem survivors_eq_take_syncedThenRotated : ∃ (w : World) (e : Engine) (n : ℕ),
    w.engine = some e ∧ e.config.sync = .interval ∧ e.retired ≠ [] ∧ w.history.session.length = 2
      ∧ w.history.synced = [⟨[1], 1, some [7]⟩]
      ∧ w.history.session.filter (w.history.survives (e.killed w.dir fun _ => 3))
        = w.history.session.take n
      ∧ ⟨[1], 1, some [7]⟩ ∈ (w.history.session.take n).map Prod.snd := by
  obtain ⟨w, e, hw, he, htest⟩ := World.exists_engine_of_run World.WritesInOrder
    (fun _ _ => writesInOrder_of_drained)
    (by decide +kernel : (run World.step (fun w action => action.faultless
      && w.engine.all fun e => e.retired.all fun p => p.2.buf = []) World.initial
        syncedThenRotated).map (fun w => w.engine.any fun e => e.config.sync = .interval
          && !e.retired.isEmpty && w.history.session.length = 2
          && w.history.synced = [⟨[1], 1, some [7]⟩] && e.retired.all fun p => p.2.buf = [])
      = some true)
  simp only [Bool.and_eq_true, decide_eq_true_iff, List.all_eq_true, Bool.not_eq_true',
    List.isEmpty_eq_false_iff] at htest
  obtain ⟨⟨⟨⟨hpolicy, hretired⟩, hlength⟩, hsynced⟩, hdrained⟩ := htest
  obtain ⟨-, n, hfilter, hkept⟩ := @survivors_eq_take w hw e he (fun _ => 3)
    fun q _ _ p hp _ _ => hdrained p hp
  exact ⟨w, e, n, he, hpolicy, hretired, hlength, hsynced, hfilter, hkept _ (by simp [hsynced])⟩

/-- A write into a log that is then replaced, and a call of `sync` before the log is dropped. -/
def syncedWhileRotating : List Action :=
  List.flatten [[.openStore ⟨.interval, 100, 4, 10⟩], Action.bufferedWrite 1 [1] (some [7]),
    [.rotate 0, .rotateSwap, .sync 1, .wal (.client 1) .check, .leave 1]]

/-- **A call of `Engine::sync` can overtake a rotation.**  It flushes the new log only; the records
of the previous one are still in memory, and a kill loses them. -/
theorem sync_overtakes_rotation :
    ¬ ∀ w, Reachable World.step (fun _ action => action.faultless = true) (· = World.initial) w →
      ∀ e, w.engine = some e → e.config.sync = .interval → ∀ cut : ℕ → ℕ,
        ∃ n, w.history.session.filter (w.history.survives (e.killed w.dir cut))
            = w.history.session.take n
          ∧ ∀ v ∈ w.history.synced, v ∈ (w.history.session.take n).map Prod.snd := by
  intro hall
  obtain ⟨w, e, hw, he, htest⟩ := World.exists_engine_of_run
    (fun _ action => action.faultless = true) (fun _ _ h => h)
    (by decide +kernel : (run World.step (fun _ action => action.faultless) World.initial
      syncedWhileRotating).map (fun w => w.engine.any fun e => e.config.sync = .interval
        && w.history.synced = [⟨[1], 1, some [7]⟩]
        && w.history.session.filter (w.history.survives (e.killed w.dir fun _ => 0)) = [])
      = some true)
  simp only [Bool.and_eq_true, decide_eq_true_iff] at htest
  obtain ⟨⟨hpolicy, hsynced⟩, hnone⟩ := htest
  obtain ⟨n, hfilter, hkept⟩ := hall w hw e he hpolicy fun _ => 0
  rw [← hfilter, hnone] at hkept
  cases hkept ⟨[1], 1, some [7]⟩ (by simp [hsynced])

end Lsmkv
