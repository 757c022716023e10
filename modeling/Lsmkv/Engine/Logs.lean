import Lsmkv.Engine.Consistent
import Lsmkv.Wal.Calm

/-!
# The logs of an orderly run

A run is orderly as long as no operation on a log fails and every replaced log is removed
(`Engine.Orderly`); any other operation of a background task may fail.  Then the directory holds
exactly the logs the engine knows of, in the order of their numbers: those a flush is removing,
those of the frozen memtables, and those of the active one (`Engine.liveLogs`).

`Engine.recordsOf` is what a log will hold once its buffer is written.  A step adds the record it
encodes to the current log and leaves every other log that stays as it was (`Logs.step`).
-/

namespace Lsmkv

open Wal

/-! ### Logs and steps -/

/-- The logs a task has still to remove. -/
def JobPc.logsToRemove : JobPc → List ℕ
  | .unlinking (.flush _) numbers => numbers
  | _ => []

namespace Engine

/-- Whether no operation on a log fails in a step, and no replaced log stays behind. -/
def Orderly (e : Engine) : Action → Prop
  | .fail .flush => (e.jobs .flush).logsToRemove = []
  | .fail .compact => True
  | action => action.faultless = true

/-- A step in which nothing fails is orderly. -/
theorem Moves.orderly {dir dir' : Dir} {e e' : Engine} {action : Action}
    (h : Moves dir e action dir' e') (hf : action.faultless = true) : e.Orderly action := by
  cases h with
  | fail => cases hf
  | _ => exact hf

/-- The logs in the directory, oldest first. -/
def liveLogs (e : Engine) : List ℕ :=
  (e.jobs .flush).logsToRemove ++ e.state.frozen.reverse.flatMap Frozen.logs ++ e.state.activeLogs

/-- The records of a log, those in the buffer included. -/
def recordsOf (dir : Dir) (e : Engine) (number : ℕ) : List Entry :=
  match e.openLogFiles.find? fun p => p.1 = number with
  | some p => contents p.2.opened.file ++ p.2.appended
  | none => contents ((dir.logs.lookup number).getD [])

/-- The records a step has encoded. -/
def encodedBy (e e' : Engine) : List Entry :=
  if e'.walNumber = e.walNumber then e'.wal.appended.drop e.wal.appended.length else []

end Engine

/-- The logs of an open store. -/
structure Logs (dir : Dir) (e : Engine) : Prop where
  calm : ∀ p ∈ e.openLogFiles, p.2.Calm ∧ p.2.policy = e.config.sync
  /-- A client outside the log does nothing in it. -/
  clients : ∀ client, client ∉ e.readers → e.wal.thread (.client client) = .idle
  rotating : e.rotating ≠ none → e.readers = []
  retired : ∀ p ∈ e.retired, ∀ client, p.2.thread (.client client) = .idle
  numbers : (e.openLogFiles.map Prod.fst).Pairwise (· < ·)
  current : ∃ older, e.state.activeLogs = older ++ [e.walNumber]
  sorted : (e.liveLogs ++ e.rotating.toList).Pairwise (· < ·)
  below : ∀ n ∈ e.liveLogs ++ e.rotating.toList, n < e.nextNumber
  known : ∀ n ∈ dir.logs, n ∈ e.liveLogs ++ e.rotating.toList
  present : ∀ n ∈ e.liveLogs, n ∈ dir.logs
  files : ∀ p ∈ e.openLogFiles, p.1 ∈ dir.logs → dir.logs.lookup p.1 = some p.2.file
  fresh : ∀ n ∈ e.rotating, contents ((dir.logs.lookup n).getD []) = []
  /-- A compaction removes no logs. -/
  compacts : (e.jobs .compact).logsToRemove = []

section

variable {dir dir' : Dir} {e e' : Engine}

theorem mem_openLogFiles {p : ℕ × Shared} :
    p ∈ e.openLogFiles ↔ p ∈ e.retired ∨ p = (e.walNumber, e.wal) := by
  rw [Engine.openLogFiles, List.mem_append, List.mem_singleton]

theorem Logs.calm_wal (hl : Logs dir e) : e.wal.Calm :=
  (hl.calm _ (mem_openLogFiles.mpr (Or.inr rfl))).1

theorem Logs.policy_wal (hl : Logs dir e) : e.wal.policy = e.config.sync :=
  (hl.calm _ (mem_openLogFiles.mpr (Or.inr rfl))).2

theorem Logs.walNumber_mem (hl : Logs dir e) : e.walNumber ∈ e.liveLogs := by
  obtain ⟨older, holder⟩ := hl.current
  rw [Engine.liveLogs, holder]
  simp

/-- A retired log is older than the current one. -/
theorem Logs.retired_lt (hl : Logs dir e) {p : ℕ × Shared} (hp : p ∈ e.retired) :
    p.1 < e.walNumber := by
  have := hl.numbers
  rw [Engine.openLogFiles, List.map_append] at this
  exact (List.pairwise_append.mp this).2.2 p.1 (List.mem_map_of_mem hp) e.walNumber (by simp)

/-- Open logs with one number are one log. -/
theorem Logs.eq_of_number (hl : Logs dir e) {p q : ℕ × Shared} (hp : p ∈ e.openLogFiles)
    (hq : q ∈ e.openLogFiles) (h : p.1 = q.1) : p = q := by
  have hnodup : (e.openLogFiles.map Prod.fst).Nodup := hl.numbers.imp fun h => h.ne
  exact List.inj_on_of_nodup_map hnodup hp hq h

/-- The log a rotation creates is newer than every other. -/
theorem Logs.lt_rotating (hl : Logs dir e) {number : ℕ} (hrotating : e.rotating = some number) :
    (∀ n ∈ e.liveLogs, n < number) ∧ ∀ p ∈ e.openLogFiles, p.1 < number := by
  have hlive : ∀ n ∈ e.liveLogs, n < number := fun n hn =>
    (List.pairwise_append.mp hl.sorted).2.2 n hn number (by rw [hrotating]; simp)
  refine ⟨hlive, fun p hp => ?_⟩
  have hwal := hlive _ hl.walNumber_mem
  rcases mem_openLogFiles.mp hp with hp | rfl
  · exact (hl.retired_lt hp).trans hwal
  · exact hwal

/-! ### The records of a log -/

theorem Logs.recordsOf_open (hl : Logs dir e) {p : ℕ × Shared} (hp : p ∈ e.openLogFiles) :
    e.recordsOf dir p.1 = contents p.2.opened.file ++ p.2.appended := by
  cases hfind : e.openLogFiles.find? fun q => q.1 = p.1 with
  | none => exact absurd (List.find?_eq_none.mp hfind p hp) (by simp)
  | some q =>
    have hq :=
      hl.eq_of_number (List.mem_of_find?_eq_some hfind) hp (by simpa using List.find?_some hfind)
    rw [Engine.recordsOf, hfind, hq]

theorem recordsOf_closed {n : ℕ} (h : ∀ p ∈ e.openLogFiles, p.1 ≠ n) :
    e.recordsOf dir n = contents ((dir.logs.lookup n).getD []) := by
  have hfind : e.openLogFiles.find? (fun q => q.1 = n) = none :=
    List.find?_eq_none.mpr fun p hp => by simpa using h p hp
  rw [Engine.recordsOf, hfind]

/-- A log has the same records when the same log is open under its number, or its file is the
same. -/
theorem recordsOf_congr {n : ℕ} (hopen : e'.openLogFiles = e.openLogFiles)
    (hlogs : dir'.logs.lookup n = dir.logs.lookup n) : e'.recordsOf dir' n = e.recordsOf dir n := by
  rw [Engine.recordsOf, Engine.recordsOf, hopen, hlogs]

/-- The files of a directory whose logs are rewritten. -/
theorem Dir.mem_writeLog {number n : ℕ} {content : Bytes} :
    n ∈ (dir.writeLog number content).logs ↔ n ∈ dir.logs := by
  unfold Dir.writeLog
  split_ifs with h
  · rw [AList.mem_insert, or_iff_right_of_imp]
    rintro rfl
    exact h
  · exact Iff.rfl

theorem Dir.lookup_writeLog_of_ne {number n : ℕ} (content : Bytes) (h : n ≠ number) :
    (dir.writeLog number content).logs.lookup n = dir.logs.lookup n := by
  unfold Dir.writeLog
  split_ifs
  · exact AList.lookup_insert_ne h
  · rfl

theorem Dir.lookup_writeLog {number : ℕ} (content : Bytes) (h : number ∈ dir.logs) :
    (dir.writeLog number content).logs.lookup number = some content := by
  unfold Dir.writeLog
  rw [if_pos h]
  exact AList.lookup_insert _

/-! ### Threads in a log -/

/-- A client outside the log does not move in it. -/
theorem Wal.Shared.ne_idle_of_internal {s s' : Shared} {client : ℕ} {event : Event}
    (h : s.step (.client client, event) = some s')
    (hevent : event.internal (.client client) = true) : s.thread (.client client) ≠ .idle := by
  intro hidle
  cases Shared.moves_of_step h with
  | report | call | sync => cases hevent
  | refuse hpc | accept hpc | tooLarge hpc | encode hpc | buffer hpc | writeFail hpc
  | writeAlways hpc | write hpc | beginFlush hpc | endFlush hpc | endFlushFail hpc | covered hpc
  | acknowledge hpc | giveUp hpc | own hpc | drainFail hpc | drain hpc | beginSync hpc
  | endSync hpc | endSyncFail hpc | publish hpc | publishFail hpc | resume hpc =>
    cases hidle.symm.trans hpc

/-! ### Steps in the current log -/

/-- What a step does to the records of the logs: the current one grows by what was encoded, and a
new one starts empty. -/
structure RecordsGrow (dir : Dir) (e : Engine) (dir' : Dir) (e' : Engine) : Prop where
  kept : ∀ n ∈ e.liveLogs, n ∈ e'.liveLogs → e'.recordsOf dir' n
    = e.recordsOf dir n ++ if n = e.walNumber then e.encodedBy e' else []
  fresh : ∀ n ∈ e'.liveLogs, n ∉ e.liveLogs → e'.recordsOf dir' n = []

theorem encodedBy_eq_nil (h : e'.wal = e.wal ∨ e'.walNumber ≠ e.walNumber) :
    e.encodedBy e' = [] := by
  unfold Engine.encodedBy
  rcases h with h | h
  · rw [h, List.drop_length, ite_self]
  · rw [if_neg h]

theorem recordsGrow_of_eq (h : e'.wal = e.wal ∨ e'.walNumber ≠ e.walNumber)
    (hkept : ∀ n ∈ e.liveLogs, n ∈ e'.liveLogs → e'.recordsOf dir' n = e.recordsOf dir n)
    (hfresh : ∀ n ∈ e'.liveLogs, n ∉ e.liveLogs → e'.recordsOf dir' n = []) :
    RecordsGrow dir e dir' e' := by
  refine ⟨fun n hn hn' => ?_, hfresh⟩
  rw [hkept n hn hn', encodedBy_eq_nil h, ite_self, List.append_nil]

/-- A thread moves in the current log, whose file the directory follows. -/
theorem Logs.walStep (hl : Logs dir e) {t : Thread} {event : Event} {wal : Shared}
    (hf : event.faultless = true) (h : e.wal.step (t, event) = some wal) {readers : List ℕ}
    {active : Memtable}
    (hclients : ∀ client, client ∉ readers → wal.thread (.client client) = .idle)
    (hreaders : e.rotating ≠ none → readers = []) (hmem : ∀ n, n ∈ dir'.logs ↔ n ∈ dir.logs)
    (hlookup : ∀ n, n ≠ e.walNumber → dir'.logs.lookup n = dir.logs.lookup n)
    (hfile : dir'.logs.lookup e.walNumber = some wal.file) :
    Logs dir' { e with wal := wal, readers := readers, state.active := active }
      ∧ RecordsGrow dir e dir'
        { e with wal := wal, readers := readers, state.active := active } := by
  set e' : Engine := { e with wal := wal, readers := readers, state.active := active } with he'
  obtain ⟨hpolicy, hopened⟩ := Shared.step_policy h
  have hl' : Logs dir' e' := { hl with
    calm := fun p hp => by
      rcases mem_openLogFiles.mp hp with hp | rfl
      · exact hl.calm p (mem_openLogFiles.mpr (Or.inl hp))
      · exact ⟨hl.calm_wal.step hf h, hpolicy.trans hl.policy_wal⟩
    clients := hclients
    rotating := hreaders
    numbers := by
      have := hl.numbers
      rw [Engine.openLogFiles, List.map_append] at this ⊢
      exact this
    known := fun n hn => hl.known n ((hmem n).mp hn)
    present := fun n hn => (hmem n).mpr (hl.present n hn)
    files := fun p hp hin => by
      rcases mem_openLogFiles.mp hp with hp | rfl
      · rw [hlookup p.1 (hl.retired_lt hp).ne]
        exact hl.files p (mem_openLogFiles.mpr (Or.inl hp)) ((hmem _).mp hin)
      · exact hfile
    fresh := fun n hn => by
      rw [hlookup n ((hl.lt_rotating hn).1 _ hl.walNumber_mem).ne']
      exact hl.fresh n hn }
  refine ⟨hl', fun n _ _ => ?_, fun n hn hn' => absurd hn hn'⟩
  by_cases hn : n = e.walNumber
  · subst hn
    rw [if_pos rfl, hl'.recordsOf_open (mem_openLogFiles.mpr (Or.inr rfl) : (e.walNumber, wal) ∈ _),
      hl.recordsOf_open (mem_openLogFiles.mpr (Or.inr rfl) : (e.walNumber, e.wal) ∈ _)]
    dsimp only
    obtain ⟨new, hnew⟩ := Shared.step_appended h
    rw [hopened, Engine.encodedBy, if_pos rfl, List.append_assoc]
    change _ = _ ++ (e.wal.appended ++ wal.appended.drop e.wal.appended.length)
    rw [← hnew, List.drop_left]
  · rw [if_neg hn, List.append_nil, Engine.recordsOf, Engine.recordsOf, Engine.openLogFiles,
      Engine.openLogFiles, List.find?_append, List.find?_append, hlookup n hn]
    simp [he', Ne.symm hn]

/-! ### Steps in the logs that were replaced -/

theorem Logs.find_retired (hl : Logs dir e) {number : ℕ} {old : Shared}
    (hold : e.retired.find? (fun p => p.1 = number) = some (number, old)) :
    (number, old) ∈ e.openLogFiles ∧ (number, old) ∈ e.retired ∧ number ≠ e.walNumber := by
  have hmem := List.mem_of_find?_eq_some hold
  exact ⟨mem_openLogFiles.mpr (Or.inl hmem), hmem, (hl.retired_lt hmem).ne⟩

/-- The background thread of a replaced log moves. -/
theorem Logs.oldWal (hl : Logs dir e) {number : ℕ} {t : Thread} {event : Event} {old wal : Shared}
    (hf : event.faultless = true) (hevent : event.internal t = true)
    (hold : e.retired.find? (fun p => p.1 = number) = some (number, old))
    (h : old.step (t, event) = some wal) :
    let e' := { e with retired := e.retired.map fun q => if q.1 = number then (number, wal) else q }
    Logs (dir.writeLog number wal.file) e'
      ∧ RecordsGrow dir e (dir.writeLog number wal.file) e' := by
  intro e'
  obtain ⟨hopen, hmem, hne⟩ := hl.find_retired hold
  obtain ⟨hcalm, hpolicy⟩ := hl.calm _ hopen
  -- the clients have left this log when it was replaced
  obtain rfl : t = .syncer := by
    cases t with
    | syncer => rfl
    | client id => exact absurd (hl.retired _ hmem id) (Shared.ne_idle_of_internal h hevent)
  have hretired : ∀ p ∈ e'.retired, p = (number, wal) ∨ p ∈ e.retired ∧ p.1 ≠ number := by
    intro p hp
    obtain ⟨q, hq, rfl⟩ := List.mem_map.mp hp
    by_cases hqn : q.1 = number
    · exact Or.inl (if_pos hqn)
    · rw [if_neg hqn]
      exact Or.inr ⟨hq, hqn⟩
  have hnumbers : e'.openLogFiles.map Prod.fst = e.openLogFiles.map Prod.fst := by
    simp only [Engine.openLogFiles, e', List.map_append, List.map_map]
    congr 1
    refine List.map_congr_left fun q _ => ?_
    dsimp only [Function.comp_apply]
    split_ifs with hq
    · exact hq.symm
    · rfl
  have hl' : Logs (dir.writeLog number wal.file) e' := { hl with
    calm := fun p hp => by
      rcases mem_openLogFiles.mp hp with hp | rfl
      · rcases hretired p hp with rfl | ⟨hp, -⟩
        · exact ⟨hcalm.step hf h, (Shared.step_policy h).1.trans hpolicy⟩
        · exact hl.calm p (mem_openLogFiles.mpr (Or.inl hp))
      · exact ⟨hl.calm_wal, hl.policy_wal⟩
    retired := fun p hp client => by
      rcases hretired p hp with rfl | ⟨hp, -⟩
      · exact (Shared.step_thread h (by simp)).trans (hl.retired _ hmem client)
      · exact hl.retired p hp client
    numbers := hnumbers ▸ hl.numbers
    known := fun n hn => hl.known n (Dir.mem_writeLog.mp hn)
    present := fun n hn => Dir.mem_writeLog.mpr (hl.present n hn)
    files := fun p hp hin => by
      rw [Dir.mem_writeLog] at hin
      rcases mem_openLogFiles.mp hp with hp | rfl
      · rcases hretired p hp with rfl | ⟨hp, hpn⟩
        · exact Dir.lookup_writeLog _ hin
        · rw [Dir.lookup_writeLog_of_ne _ hpn]
          exact hl.files p (mem_openLogFiles.mpr (Or.inl hp)) hin
      · rw [Dir.lookup_writeLog_of_ne _ (Ne.symm hne)]
        exact hl.files _ (mem_openLogFiles.mpr (Or.inr rfl)) hin
    fresh := fun n hn => by
      rw [Dir.lookup_writeLog_of_ne _ ((hl.lt_rotating hn).2 _ hopen).ne']
      exact hl.fresh n hn }
  refine ⟨hl', recordsGrow_of_eq (Or.inl rfl) (fun n _ _ => ?_) fun n hn hn' => absurd hn hn'⟩
  by_cases hn : n = number
  · subst hn
    have hmem' : (n, wal) ∈ e'.openLogFiles := mem_openLogFiles.mpr
      (Or.inl (List.mem_map.mpr ⟨_, hmem, if_pos rfl⟩))
    rw [hl'.recordsOf_open hmem', hl.recordsOf_open hopen]
    dsimp only
    rw [(Shared.step_policy h).2, hcalm.appended_syncer hf h]
  · have hfind : e'.openLogFiles.find? (fun p => p.1 = n)
        = e.openLogFiles.find? fun p => p.1 = n := by
      simp only [Engine.openLogFiles, e', List.find?_append, List.find?_map]
      congr 1
      have hsame : ((fun p : ℕ × Shared => decide (p.1 = n)) ∘ fun q : ℕ × Shared =>
          if q.1 = number then (number, wal) else q) = fun q => decide (q.1 = n) := by
        funext q
        dsimp only [Function.comp_apply]
        split_ifs with hq
        · rw [hq]
        · rfl
      rw [hsame]
      cases hq : e.retired.find? fun q => decide (q.1 = n) with
      | none => rfl
      | some q =>
        have : q.1 = n := by simpa using List.find?_some hq
        rw [Option.map_some, if_neg (this ▸ hn)]
    rw [Engine.recordsOf, Engine.recordsOf, hfind, Dir.lookup_writeLog_of_ne _ hn]

/-- A replaced log is dropped, with what was left of its buffer written. -/
theorem Logs.dropLog (hl : Logs dir e) {number : ℕ} {old : Shared}
    (hold : e.retired.find? (fun p => p.1 = number) = some (number, old)) :
    let dir' := dir.writeLog number (old.writePending none).1.file
    let e' := { e with retired := e.retired.filter fun q => q.1 ≠ number }
    Logs dir' e' ∧ RecordsGrow dir e dir' e' := by
  intro dir' e'
  obtain ⟨hopen, hmem, hne⟩ := hl.find_retired hold
  have hsub : ∀ p ∈ e'.openLogFiles, p ∈ e.openLogFiles ∧ p.1 ≠ number := by
    intro p hp
    rcases mem_openLogFiles.mp hp with hp | rfl
    · obtain ⟨hp, hpn⟩ := List.mem_filter.mp hp
      exact ⟨mem_openLogFiles.mpr (Or.inl hp), of_decide_eq_true hpn⟩
    · exact ⟨mem_openLogFiles.mpr (Or.inr rfl), Ne.symm hne⟩
  have hl' : Logs dir' e' := { hl with
    calm := fun p hp => hl.calm p (hsub p hp).1
    retired := fun p hp => hl.retired p (List.mem_of_mem_filter hp)
    numbers := by
      refine List.Pairwise.sublist ?_ hl.numbers
      rw [Engine.openLogFiles, Engine.openLogFiles]
      exact (List.filter_sublist.append (List.Sublist.refl _)).map _
    known := fun n hn => hl.known n (Dir.mem_writeLog.mp hn)
    present := fun n hn => Dir.mem_writeLog.mpr (hl.present n hn)
    files := fun p hp hin => by
      obtain ⟨hp, hpn⟩ := hsub p hp
      rw [Dir.lookup_writeLog_of_ne _ hpn]
      exact hl.files p hp (Dir.mem_writeLog.mp hin)
    fresh := fun n hn => by
      rw [Dir.lookup_writeLog_of_ne _ ((hl.lt_rotating hn).2 _ hopen).ne']
      exact hl.fresh n hn }
  refine ⟨hl', recordsGrow_of_eq (Or.inl rfl) (fun n hn _ => ?_) fun n hn hn' => absurd hn hn'⟩
  by_cases hnumber : n = number
  · -- what was pending is in the file once the handle is gone
    subst hnumber
    rw [hl.recordsOf_open hopen, recordsOf_closed fun p hp => (hsub p hp).2,
      Dir.lookup_writeLog _ (hl.present n hn), Option.getD_some]
    exact (hl.calm _ hopen).1.contents_drained
  · have hfind : e'.openLogFiles.find? (fun p => p.1 = n)
        = e.openLogFiles.find? fun p => p.1 = n := by
      simp only [Engine.openLogFiles, e', List.find?_append, List.find?_filter]
      congr 2
      funext q
      by_cases hq : q.1 = n
      · simp [hq, hnumber]
      · simp [hq]
    rw [Engine.recordsOf, Engine.recordsOf, hfind, Dir.lookup_writeLog_of_ne _ hnumber]

/-! ### Rotations -/

/-- A rotation takes a number no log has. -/
theorem Logs.rotate (hl : Logs dir e) (hreaders : e.readers = []) (hrotating : e.rotating = none) :
    Logs dir { e with rotating := some e.nextNumber, nextNumber := e.nextNumber + 1 } := by
  have hlive : ∀ n ∈ e.liveLogs, n < e.nextNumber := fun n hn =>
    hl.below n (List.mem_append_left _ hn)
  have hnone : e.nextNumber ∉ dir.logs := fun hmem => by
    have hknown := hl.known _ hmem
    rw [hrotating, Option.toList_none, List.append_nil] at hknown
    exact lt_irrefl _ (hlive _ hknown)
  have hsorted := hl.sorted
  rw [hrotating, Option.toList_none, List.append_nil] at hsorted
  exact { hl with
    rotating := fun _ => hreaders
    sorted := List.pairwise_append.mpr ⟨hsorted, List.pairwise_singleton _ _, fun n hn m hm => by
      rw [List.mem_singleton.mp hm]
      exact hlive n hn⟩
    below := fun n hn => by
      rcases List.mem_append.mp hn with hn | hn
      · exact (hlive n hn).trans (Nat.lt_succ_self _)
      · rw [List.mem_singleton.mp hn]
        exact Nat.lt_succ_self _
    known := fun n hn => by
      have := hl.known n hn
      rw [hrotating, Option.toList_none, List.append_nil] at this
      exact List.mem_append_left _ this
    fresh := fun n hn => by
      obtain rfl := Option.some.inj hn
      rw [AList.lookup_eq_none.mpr hnone]
      exact contents_short (by decide) }

/-- The file of the log that is being created changes. -/
theorem Logs.rotateWrite (hl : Logs dir e) {number : ℕ} {content : Bytes}
    (hrotating : e.rotating = some number) (hcontent : contents content = []) :
    Logs (dir.apply (.setLog number content)) e
      ∧ RecordsGrow dir e (dir.apply (.setLog number content)) e := by
  obtain ⟨hlive, hopen⟩ := hl.lt_rotating hrotating
  have hlookup : ∀ n, n ≠ number →
      (dir.apply (.setLog number content)).logs.lookup n = dir.logs.lookup n :=
    fun n hn => AList.lookup_insert_ne hn
  refine ⟨{ hl with
    known := fun n hn => ?_
    present := fun n hn => (AList.mem_insert _).mpr (Or.inr (hl.present n hn))
    files := fun p hp hin => ?_
    fresh := fun n hn => ?_ }, recordsGrow_of_eq (Or.inl rfl)
      (fun n hn _ => recordsOf_congr rfl (hlookup n (hlive n hn).ne)) fun n hn hn' => absurd hn hn'⟩
  · rcases (AList.mem_insert _).mp hn with rfl | hn
    · rw [hrotating]
      exact List.mem_append_right _ (List.mem_singleton_self _)
    · exact hl.known n hn
  · have hne := (hopen p hp).ne
    rw [hlookup p.1 hne]
    exact hl.files p hp (((AList.mem_insert _).mp hin).resolve_left hne)
  · obtain rfl : number = n := Option.some.inj (hrotating.symm.trans hn)
    rw [show (dir.apply (.setLog number content)).logs.lookup number = some content from
      AList.lookup_insert _]
    exact hcontent

/-- The new log takes over, and the previous one waits to be dropped. -/
theorem Logs.rotateSwap (hl : Logs dir e) {number : ℕ} {r : Recovered}
    (hrotating : e.rotating = some number)
    (hrecover : recover number (dir.logs.lookup number) e.wal.lastSeq = .ok r)
    (hwal : e'.wal = Shared.new e.config.sync r) (hnumber : e'.walNumber = number)
    (hrot : e'.rotating = none) (hretired : e'.retired = e.retired ++ [(e.walNumber, e.wal)])
    (hactive : e'.state.activeLogs = [number])
    (hfrozen : e'.state.frozen = ⟨e.state.active, e.state.activeLogs⟩ :: e.state.frozen)
    (hrest : e'.config = e.config ∧ e'.readers = e.readers ∧ e'.nextNumber = e.nextNumber
      ∧ e'.jobs = e.jobs) :
    Logs (dir.apply (.setLog number r.file)) e'
      ∧ RecordsGrow dir e (dir.apply (.setLog number r.file)) e' := by
  obtain ⟨hconfig, hreaders, hnext, hjobs⟩ := hrest
  obtain ⟨hlive, hopen⟩ := hl.lt_rotating hrotating
  obtain ⟨-, hintact, hcontents, -⟩ := spec_of_recover hrecover
  have hempty : contents r.file = [] := hcontents.trans (hl.fresh number hrotating)
  have hlookup : ∀ n, n ≠ number →
      (dir.apply (.setLog number r.file)).logs.lookup n = dir.logs.lookup n :=
    fun n hn => AList.lookup_insert_ne hn
  have hself : (dir.apply (.setLog number r.file)).logs.lookup number = some r.file :=
    AList.lookup_insert _
  have hopen' : e'.openLogFiles = e.openLogFiles ++ [(number, Shared.new e.config.sync r)] := by
    rw [Engine.openLogFiles, hretired, hnumber, hwal]
    rfl
  have hlive' : e'.liveLogs = e.liveLogs ++ [number] := by
    simp only [Engine.liveLogs, hjobs, hfrozen, hactive, List.reverse_cons, List.flatMap_append,
      List.flatMap_cons, List.flatMap_nil, List.append_nil, List.append_assoc]
  have hnone : e'.rotating.toList = [] := by rw [hrot]; rfl
  -- the number the rotation held becomes a live log, so the known logs stay the same
  have hold : e.liveLogs ++ e.rotating.toList = e'.liveLogs ++ e'.rotating.toList := by
    rw [hlive', hnone, hrotating, List.append_nil]
    rfl
  have hl' : Logs (dir.apply (.setLog number r.file)) e' := {
    calm := fun p hp => by
      rw [hopen', List.mem_append, List.mem_singleton] at hp
      rw [hconfig]
      rcases hp with hp | rfl
      · exact hl.calm p hp
      · exact ⟨Shared.Calm.new hintact, rfl⟩
    clients := fun client _ => by rw [hwal]; rfl
    rotating := fun hne => absurd hrot hne
    retired := fun p hp client => by
      rw [hretired, List.mem_append, List.mem_singleton] at hp
      rcases hp with hp | rfl
      · exact hl.retired p hp client
      · refine hl.clients client ?_
        rw [hl.rotating (by rw [hrotating]; simp)]
        exact List.not_mem_nil
    numbers := by
      rw [hopen', List.map_append]
      refine List.pairwise_append.mpr ⟨hl.numbers, List.pairwise_singleton _ _, fun n hn m hm => ?_⟩
      obtain ⟨p, hp, rfl⟩ := List.mem_map.mp hn
      rw [List.mem_singleton.mp hm]
      exact hopen p hp
    current := ⟨[], by rw [hactive, hnumber]; rfl⟩
    sorted := hold ▸ hl.sorted
    below := hold ▸ hnext ▸ hl.below
    known := fun n hn => by
      rw [← hold]
      rcases (AList.mem_insert _).mp hn with rfl | hn
      · rw [hrotating]
        exact List.mem_append_right _ (List.mem_singleton_self _)
      · exact hl.known n hn
    present := fun n hn => by
      rw [hlive', List.mem_append, List.mem_singleton] at hn
      exact (AList.mem_insert _).mpr (hn.symm.imp_right (hl.present n))
    files := fun p hp hin => by
      rw [hopen', List.mem_append, List.mem_singleton] at hp
      rcases hp with hp | rfl
      · rw [hlookup p.1 (hopen p hp).ne]
        exact hl.files p hp (((AList.mem_insert _).mp hin).resolve_left (hopen p hp).ne)
      · exact hself
    fresh := fun n hn => by
      rw [hrot] at hn
      cases hn
    compacts := by rw [hjobs]; exact hl.compacts }
  refine ⟨hl', recordsGrow_of_eq (Or.inr ?_) (fun n hn _ => ?_) fun n hn hn' => ?_⟩
  · rw [hnumber]
    exact (hlive _ hl.walNumber_mem).ne'
  rotate_left
  · rw [hlive', List.mem_append, List.mem_singleton] at hn
    rw [hn.resolve_left hn']
    have hmem : (number, Shared.new e.config.sync r) ∈ e'.openLogFiles := by
      rw [hopen']
      exact List.mem_append_right _ (List.mem_singleton_self _)
    rw [hl'.recordsOf_open hmem]
    change contents r.file ++ [] = []
    rw [hempty, List.append_nil]
  · have hne := (hlive n hn).ne'
    rw [Engine.recordsOf, Engine.recordsOf, hopen', List.find?_append, hlookup n (Ne.symm hne)]
    simp [hne]

/-! ### Background tasks -/

/-- A step of a background task that leaves the logs alone. -/
theorem Logs.jobSide (hl : Logs dir e) {slot : Slot} (hs : Engine.JobSide slot e e')
    (hlive : e'.liveLogs = e.liveLogs) (hcompacts : (e'.jobs .compact).logsToRemove = [])
    (hlogs : dir'.logs = dir.logs) :
    Logs dir' e' ∧ RecordsGrow dir e dir' e' := by
  have hopen : e'.openLogFiles = e.openLogFiles := by
    rw [Engine.openLogFiles, hs.retired, hs.walNumber, hs.wal]
    rfl
  refine ⟨?_, recordsGrow_of_eq (Or.inl hs.wal) (fun n _ _ => recordsOf_congr hopen (by rw [hlogs]))
    fun n hn hn' => absurd (hlive ▸ hn) hn'⟩
  exact {
    calm := by rw [hopen, hs.config]; exact hl.calm
    clients := by rw [hs.readers, hs.wal]; exact hl.clients
    rotating := by rw [hs.readers, hs.rotating]; exact hl.rotating
    retired := by rw [hs.retired]; exact hl.retired
    numbers := by rw [hopen]; exact hl.numbers
    current := by rw [hs.activeLogs, hs.walNumber]; exact hl.current
    sorted := by rw [hlive, hs.rotating]; exact hl.sorted
    below := by
      rw [hlive, hs.rotating]
      exact fun n hn => (hl.below n hn).trans_le hs.nextNumber
    known := by rw [hlive, hs.rotating, hlogs]; exact hl.known
    present := by rw [hlive, hlogs]; exact hl.present
    files := by rw [hopen, hlogs]; exact hl.files
    fresh := by rw [hs.rotating, hlogs]; exact hl.fresh
    compacts := hcompacts }

/-- Logs are removed by flushes. -/
theorem Logs.eq_flush (hl : Logs dir e) {slot : Slot} {frozen : Frozen} {number : ℕ} {rest : List ℕ}
    (hpc : e.jobs slot = .unlinking (.flush frozen) (number :: rest)) : slot = .flush := by
  cases slot with
  | flush => rfl
  | compact =>
    have := hl.compacts
    rw [hpc] at this
    cases this

/-- A flush removes the oldest log. -/
theorem Logs.unlinkLog (hl : Logs dir e) {slot : Slot} {frozen : Frozen} {number : ℕ}
    {rest : List ℕ}
    (hpc : e.jobs slot = .unlinking (.flush frozen) (number :: rest)) :
    let e' := e.setJob slot (.unlinking (.flush frozen) rest)
    let dir' := { dir with logs := dir.logs.erase number }
    Logs dir' e' ∧ RecordsGrow dir e dir' e' := by
  intro e' dir'
  obtain rfl := hl.eq_flush hpc
  have hlive : e.liveLogs = number :: e'.liveLogs := by
    simp only [Engine.liveLogs, hpc, e', Engine.setJob_self]
    rfl
  have hsorted := hl.sorted
  rw [hlive, List.cons_append] at hsorted
  obtain ⟨hfirst, hsorted⟩ := List.pairwise_cons.mp hsorted
  have hne : ∀ n ∈ e'.liveLogs, n ≠ number := fun n hn => (hfirst n (List.mem_append_left _ hn)).ne'
  have hlookup : ∀ n, n ≠ number → dir'.logs.lookup n = dir.logs.lookup n :=
    fun n hn => AList.lookup_erase_ne hn
  refine ⟨{ hl with
    sorted := hsorted
    below := fun n hn => hl.below n (by rw [hlive]; exact List.mem_cons_of_mem _ hn)
    known := fun n hn => ?_
    present := fun n hn => ?_
    files := fun p hp hin => ?_
    fresh := fun n hn => ?_
    compacts := ?_ }, recordsGrow_of_eq (Or.inl rfl)
      (fun n _ hn => recordsOf_congr rfl (hlookup n (hne n hn))) fun n hn hn' => ?_⟩
  · obtain ⟨hn', hmem⟩ := AList.mem_erase.mp hn
    have := hl.known n hmem
    rw [hlive, List.cons_append] at this
    exact (List.mem_cons.mp this).resolve_left hn'
  · refine AList.mem_erase.mpr ⟨hne n hn, hl.present n ?_⟩
    rw [hlive]
    exact List.mem_cons_of_mem _ hn
  · obtain ⟨hp', hmem⟩ := AList.mem_erase.mp hin
    rw [hlookup p.1 hp']
    exact hl.files p hp hmem
  · rw [hlookup n (hfirst n (List.mem_append_right _ (Option.mem_toList.mpr hn))).ne']
    exact hl.fresh n hn
  · rw [show e'.jobs .compact = e.jobs .compact from e.setJob_of_ne _ (by simp)]
    exact hl.compacts
  · rw [hlive] at hn'
    exact absurd (List.mem_cons_of_mem _ hn) hn'

/-- A commit hands the logs of its memtable over for removal. -/
theorem Logs.publish (hl : Logs dir e) (hi : Files dir e) {slot : Slot} {job : Job}
    {next : Snapshot}
    (hpc : e.jobs slot = .committing job next .renamed)
    (hs : Engine.JobSide slot e e')
    (hjob : e'.jobs slot = .unlinking job.target job.target.unlinks)
    (hstate : e'.state = job.target.publish job.outputs e.state) :
    Logs dir e' ∧ RecordsGrow dir e dir e' := by
  have hok := hi.jobs slot
  rw [hpc] at hok
  obtain ⟨hj, hc, -⟩ := hok
  cases htarget : job.target with
  | flush f =>
    obtain ⟨rfl, hlast, -⟩ := hj.flush_output hc htarget
    refine hl.jobSide hs ?_ ?_ rfl
    · obtain ⟨init, hinit⟩ := List.getLast?_eq_some_iff.mp hlast
      simp only [Engine.liveLogs, hpc, hjob, hstate, htarget, Target.publish, Target.unlinks,
        JobPc.logsToRemove, hinit, List.dropLast_concat, List.reverse_append,
          List.reverse_singleton, List.flatMap_append, List.flatMap_singleton, List.nil_append]
    · rw [hs.jobs .compact (by simp)]
      exact hl.compacts
  | compact snapshot plan =>
    obtain ⟨rfl, -⟩ := hj.merges hc htarget
    refine hl.jobSide hs ?_ ?_ rfl
    · rw [Engine.liveLogs, Engine.liveLogs, hs.jobs .flush (by simp), hstate, htarget]
      rfl
    · rw [hjob, htarget]
      rfl

/-- A task that goes on without removing logs. -/
theorem Logs.goto (hl : Logs dir e) {slot : Slot} {pc : JobPc}
    (hold : slot = .flush → (e.jobs slot).logsToRemove = []) (hnew : pc.logsToRemove = [])
    (hs : Engine.JobSide slot e e') (hjob : e'.jobs slot = pc)
    (hfrozen : e'.state.frozen = e.state.frozen) (hlogs : dir'.logs = dir.logs) :
    Logs dir' e' ∧ RecordsGrow dir e dir' e' := by
  refine hl.jobSide hs ?_ ?_ hlogs
  · rw [Engine.liveLogs, Engine.liveLogs, hs.activeLogs, hfrozen]
    cases slot with
    | flush => rw [hjob, hnew, hold rfl]
    | compact => rw [hs.jobs .flush (by simp)]
  · cases slot with
    | flush =>
      rw [hs.jobs .compact (by simp)]
      exact hl.compacts
    | compact => rw [hjob, hnew]

/-! ### Every step -/

theorem Logs.client_step (hl : Logs dir e) {client : ℕ} {event : Event} {wal : Shared}
    (h : e.wal.step (.client client, event) = some wal) {readers : List ℕ}
    (hmem : client ∈ readers) (hsub : ∀ c ∈ e.readers, c ∈ readers) :
    ∀ c, c ∉ readers → wal.thread (.client c) = .idle := by
  intro c hc
  rw [Shared.step_thread h (by rintro ⟨rfl⟩; exact hc hmem)]
  exact hl.clients c fun hin => hc (hsub c hin)

/-- **Every orderly step keeps the logs.** -/
theorem Logs.step (hl : Logs dir e) (hi : Files dir e) (hr : dir.LogsReadable) {action : Action}
    (ho : e.Orderly action) (h : Engine.Moves dir e action dir' e') :
    Logs dir' e' ∧ RecordsGrow dir e dir' e' := by
  have hcurrent : e.walNumber ∈ dir.logs := hl.present _ hl.walNumber_mem
  have hfile := hl.files _ (mem_openLogFiles.mpr (Or.inr rfl) : (e.walNumber, e.wal) ∈ _) hcurrent
  -- a step of a client that leaves the file alone
  have hclient : ∀ {client : ℕ} {event : Event} {wal : Shared}, event.faultless = true →
      (∀ fault, event ≠ .write fault) → e.wal.step (.client client, event) = some wal →
      ∀ {readers : List ℕ} {active : Memtable},
      (∀ c, c ∉ readers → wal.thread (.client c) = .idle) →
      (e.rotating ≠ none → readers = []) →
      Logs dir { e with wal := wal, readers := readers, state.active := active }
        ∧ RecordsGrow dir e dir
          { e with wal := wal, readers := readers, state.active := active } := by
    intro client event wal hf hevent hwal readers active hclients hreaders
    refine hl.walStep hf hwal hclients hreaders (fun _ => Iff.rfl) (fun _ _ => rfl) ?_
    rw [Shared.file_of_not_write hwal hevent]
    exact hfile
  have hjob : ∀ {slot : Slot} {pc : JobPc} (dir' : Dir), (e.jobs slot).logsToRemove = [] →
      pc.logsToRemove = [] → dir'.logs = dir.logs →
      Logs dir' (e.setJob slot pc) ∧ RecordsGrow dir e dir' (e.setJob slot pc) :=
    fun dir' hold hnew hlogs => hl.goto (fun _ => hold) hnew (Engine.jobSide_setJob _ _ _)
      (Engine.setJob_self ..) rfl hlogs
  have hside : ∀ {slot : Slot}, action.slot = some slot → Engine.JobSide slot e e' := h.jobSide
  cases h with
  | write hrotating hnot hwal =>
    exact hclient rfl (by simp) hwal (hl.client_step hwal List.mem_cons_self
      fun c => List.mem_cons_of_mem _) (fun hne => absurd hrotating hne)
  | sync hrotating hnot hwal =>
    exact hclient rfl (by simp) hwal (hl.client_step hwal List.mem_cons_self
      fun c => List.mem_cons_of_mem _) (fun hne => absurd hrotating hne)
  | @wal t event wal hevent hwal =>
    refine hl.walStep ho hwal (fun c hc => ?_) hl.rotating (fun n => Dir.mem_writeLog)
      (fun n hn => Dir.lookup_writeLog_of_ne _ hn) (Dir.lookup_writeLog _ hcurrent)
    rw [Shared.step_thread hwal]
    · exact hl.clients c hc
    · rintro rfl
      exact Shared.ne_idle_of_internal hwal hevent (hl.clients c hc)
  | @insert client entry wal hthread hwal =>
    have hin : client ∈ e.readers := by
      by_contra hnot
      cases (hl.clients client hnot).symm.trans hthread
    exact hclient rfl (by simp) hwal (hl.client_step hwal hin fun c hc => hc) hl.rotating
  | @leave client hin hidle =>
    refine ⟨{ hl with clients := fun c hc => ?_, rotating := fun hne => ?_ },
      recordsGrow_of_eq (Or.inl rfl) (fun _ _ _ => rfl) fun n hn hn' => absurd hn hn'⟩
    · by_cases heq : c = client
      · exact heq ▸ hidle
      · exact hl.clients c fun hin => hc ((List.mem_erase_of_ne heq).mpr hin)
    · change e.readers.erase client = []
      rw [hl.rotating hne]
      rfl
  | rotateNot | planNot =>
    exact ⟨hl, recordsGrow_of_eq (Or.inl rfl) (fun _ _ _ => rfl) fun n hn hn' => absurd hn hn'⟩
  | rotate hreaders hrotating _ =>
    exact ⟨hl.rotate hreaders hrotating,
      recordsGrow_of_eq (Or.inl rfl) (fun _ _ _ => rfl) fun n hn hn' => absurd hn hn'⟩
  | @rotateWrite _ number _ hrotating hcontent =>
    have := ((recoverSteps_spec number (hr.getD number)).1 _ hcontent).2
    exact hl.rotateWrite hrotating (this.trans (hl.fresh number hrotating))
  | rotateSwap hrotating hrecover =>
    exact hl.rotateSwap hrotating hrecover rfl rfl rfl rfl rfl rfl ⟨rfl, rfl, rfl, rfl⟩
  | rotateFail => cases ho
  | oldWal hevent hold hwal => exact hl.oldWal ho hevent hold hwal
  | @dropLog number fault old hold hthread =>
    obtain rfl : fault = none := by simpa [Engine.Orderly, Action.faultless] using ho
    exact hl.dropLog hold
  | take hpc => exact hjob dir (by rw [hpc]; rfl) rfl rfl
  | plan hpc | abandon hpc | find hpc | openOutput hpc | ready hpc | lock hpc =>
    exact hjob dir (by rw [hpc]; rfl) rfl rfl
  | create hpc | finish hpc | rename hpc | createManifest hpc | writeManifest hpc
  | renameManifest hpc => exact hjob _ (by rw [hpc]; rfl) rfl rfl
  | @alloc slot _ _ _ _ hpc =>
    exact hl.goto (fun _ => by rw [hpc]; rfl) rfl (hside rfl)
      (Engine.setJob_self ..) rfl rfl
  | @publish slot _ _ hpc hrotating =>
    exact hl.publish hi hpc (hside rfl)
      (Engine.setJob_self ..) rfl
  | unlinkLog hpc _ => exact hl.unlinkLog hpc
  | unlinkTable hpc => exact hjob _ (by rw [hpc]; rfl) rfl rfl
  | @done slot target hpc hrotating =>
    refine hl.goto (fun _ => ?_) rfl (hside rfl)
      (Engine.setJob_self ..) rfl rfl
    rw [hpc]
    cases target <;> rfl
  | @fail slot =>
    refine hl.goto (fun hslot => ?_) rfl (Engine.jobSide_setJob _ _ _)
      (Engine.setJob_self ..) rfl rfl
    subst hslot
    exact ho

/-! ### What a kill or a drop leaves -/

/-- A sequence of rewrites of different logs. -/
theorem lookup_foldl_writeLog (content : ℕ × Shared → Bytes) : ∀ (logs : List (ℕ × Shared))
    (dir : Dir), (logs.map Prod.fst).Nodup →
    let dir' := logs.foldl (fun dir p => dir.writeLog p.1 (content p)) dir
    (∀ n, n ∈ dir'.logs ↔ n ∈ dir.logs)
      ∧ (∀ n, n ∉ logs.map Prod.fst → dir'.logs.lookup n = dir.logs.lookup n)
      ∧ ∀ p ∈ logs, p.1 ∈ dir.logs → dir'.logs.lookup p.1 = some (content p) := by
  intro logs
  induction logs with
  | nil => exact fun dir _ => ⟨fun _ => Iff.rfl, fun _ _ => rfl, fun _ h => nomatch h⟩
  | cons q logs ih =>
    intro dir hnodup
    rw [List.map_cons, List.nodup_cons] at hnodup
    obtain ⟨hq, hnodup⟩ := hnodup
    obtain ⟨hmem, hother, hself⟩ := ih (dir.writeLog q.1 (content q)) hnodup
    refine ⟨fun n => (hmem n).trans Dir.mem_writeLog, fun n hn => ?_, fun p hp hin => ?_⟩
    · rw [List.map_cons, List.mem_cons, not_or] at hn
      rw [List.foldl_cons, hother n hn.2, Dir.lookup_writeLog_of_ne _ hn.1]
    · rcases List.mem_cons.mp hp with rfl | hp
      · rw [List.foldl_cons, hother _ hq, Dir.lookup_writeLog _ hin]
      · rw [List.foldl_cons, hself p hp (Dir.mem_writeLog.mpr hin)]

/-- What a kill leaves of each log. -/
theorem Logs.lookup_killed (hl : Logs dir e) (cut : ℕ → ℕ) :
    (∀ n, n ∈ (e.killed dir cut).logs ↔ n ∈ dir.logs)
      ∧ (∀ n, (∀ p ∈ e.openLogFiles, p.1 ≠ n) →
        (e.killed dir cut).logs.lookup n = dir.logs.lookup n)
      ∧ ∀ p ∈ e.openLogFiles, p.1 ∈ dir.logs →
        (e.killed dir cut).logs.lookup p.1 = some (p.2.file ++ p.2.buf.take (cut p.1)) := by
  obtain ⟨hmem, hother, hself⟩ := lookup_foldl_writeLog
    (fun p => p.2.file ++ p.2.buf.take (cut p.1)) e.openLogFiles dir (hl.numbers.imp fun h => h.ne)
  refine ⟨hmem, fun n hn => hother n fun hin => ?_, hself⟩
  obtain ⟨p, hp, rfl⟩ := List.mem_map.mp hin
  exact hn p hp rfl

/-- The records of a directory in which every log but the current one is complete. -/
theorem Logs.allRecords_eq (hl : Logs dir e) {records : List Entry}
    (hmem : ∀ n ∈ dir'.logs, n ∈ dir.logs)
    (hrotating : ∀ n ∈ e.rotating, dir'.logs.lookup n = dir.logs.lookup n)
    (hkept : ∀ n ∈ e.liveLogs, n ≠ e.walNumber →
      contents ((dir'.logs.lookup n).getD []) = e.recordsOf dir n)
    (hcurrent : contents ((dir'.logs.lookup e.walNumber).getD []) = records) :
    ∃ init, e.liveLogs = init ++ [e.walNumber]
      ∧ dir'.allRecords = init.flatMap (e.recordsOf dir) ++ records := by
  obtain ⟨older, holder⟩ := hl.current
  have hlive : e.liveLogs = ((e.jobs .flush).logsToRemove
      ++ e.state.frozen.reverse.flatMap Frozen.logs ++ older) ++ [e.walNumber] := by
    rw [Engine.liveLogs, holder, List.append_assoc _ older]
  set init := (e.jobs .flush).logsToRemove ++ e.state.frozen.reverse.flatMap Frozen.logs ++ older
  refine ⟨init, hlive, ?_⟩
  have hsorted := hl.sorted
  rw [← Dir.records_eq_allRecords hsorted fun n hn => hl.known n (hmem n hn), Dir.records,
    List.flatMap_append, hlive, List.flatMap_append, List.flatMap_singleton, hcurrent]
  have hrot :
      e.rotating.toList.flatMap (fun n => contents ((dir'.logs.lookup n).getD [])) = [] := by
    rw [List.flatMap_eq_nil_iff]
    intro n hn
    rw [hrotating n (Option.mem_toList.mp hn)]
    exact hl.fresh n (Option.mem_toList.mp hn)
  have hne : ∀ n ∈ init, n ≠ e.walNumber := by
    rw [hlive] at hsorted
    exact fun n hn => ((List.pairwise_append.mp (List.pairwise_append.mp hsorted).1).2.2 n hn _
      (List.mem_singleton_self _)).ne
  rw [hrot, List.append_nil]
  congr 1
  refine List.flatMap_congr fun n hn => hkept n ?_ (hne n hn)
  rw [hlive]
  exact List.mem_append_left _ hn

/-- **A kill under `Always` or `Group`** cuts the end of the current log at most. -/
theorem Logs.allRecords_killed (hl : Logs dir e) (hpolicy : e.config.sync ≠ .interval)
    (cut : ℕ → ℕ) : ∃ init j, e.liveLogs = init ++ [e.walNumber] ∧ e.wal.taken ≤ j
      ∧ (e.killed dir cut).allRecords = init.flatMap (e.recordsOf dir)
        ++ (contents e.wal.opened.file ++ e.wal.appended.take j) := by
  obtain ⟨hmem, hclosed, hopen⟩ := hl.lookup_killed cut
  obtain ⟨j, hj, hcut⟩ := hl.calm_wal.contents_cut (cut e.walNumber)
  have hwal : (e.walNumber, e.wal) ∈ e.openLogFiles := mem_openLogFiles.mpr (Or.inr rfl)
  have hkept : ∀ n ∈ e.liveLogs, n ≠ e.walNumber →
      contents (((e.killed dir cut).logs.lookup n).getD []) = e.recordsOf dir n := by
    intro n hn hne
    by_cases hp : ∃ p ∈ e.openLogFiles, p.1 = n
    · -- a log that was replaced has nothing in its buffer
      obtain ⟨p, hp, rfl⟩ := hp
      obtain ⟨hcalm, hsync⟩ := hl.calm p hp
      have hretired : p ∈ e.retired := (mem_openLogFiles.mp hp).resolve_right fun heq =>
        hne (by rw [heq])
      have hbuf := hcalm.buf_eq_nil (hsync ▸ hpolicy) (hcalm.not_held (hl.retired p hretired))
      have hdrained := hcalm.contents_drained
      rw [Log.writePending_nil hbuf] at hdrained
      rw [hopen p hp (hl.present _ hn), hbuf, List.take_nil, List.append_nil, Option.getD_some,
        hdrained, hl.recordsOf_open hp]
    · have hnot : ∀ p ∈ e.openLogFiles, p.1 ≠ n := fun p hp' heq => hp ⟨p, hp', heq⟩
      rw [hclosed n hnot, recordsOf_closed hnot]
  have hcurrent : contents (((e.killed dir cut).logs.lookup e.walNumber).getD [])
      = contents e.wal.opened.file ++ e.wal.appended.take j := by
    rw [hopen _ hwal (hl.present _ hl.walNumber_mem), Option.getD_some]
    exact hcut
  obtain ⟨init, hlive, hall⟩ := hl.allRecords_eq (fun n hn => (hmem n).mp hn)
    (fun n hn => hclosed n fun p hp => ((hl.lt_rotating hn).2 p hp).ne) hkept hcurrent
  exact ⟨init, j, hlive, hj, hall⟩

/-- **A drop** writes everything. -/
theorem Logs.allRecords_dropped (hl : Logs dir e) (hretired : e.retired = []) :
    ∃ init, e.liveLogs = init ++ [e.walNumber]
      ∧ (e.dropped dir none).allRecords = init.flatMap (e.recordsOf dir)
        ++ (contents e.wal.opened.file ++ e.wal.appended) := by
  have hwal : e.walNumber ∈ dir.logs := hl.present _ hl.walNumber_mem
  refine hl.allRecords_eq (fun n hn => Dir.mem_writeLog.mp hn) (fun n hn => ?_)
    (fun n hn hne => ?_) ?_
  · exact Dir.lookup_writeLog_of_ne _ ((hl.lt_rotating hn).1 _ hl.walNumber_mem).ne'
  · rw [Engine.dropped, Dir.lookup_writeLog_of_ne _ hne]
    refine (recordsOf_closed fun p hp heq => hne ?_).symm
    rcases mem_openLogFiles.mp hp with hp | rfl
    · rw [hretired] at hp
      cases hp
    · exact heq.symm
  · rw [Engine.dropped, Dir.lookup_writeLog _ hwal, Option.getD_some]
    exact hl.calm_wal.contents_drained

/-! ### A store that was just opened -/

theorem OpenedFrom.liveLogs {config : Config} (h : OpenedFrom dir config dir' e) :
    e.liveLogs = e.state.activeLogs := by
  obtain ⟨r, heq, -⟩ := h.fresh
  rw [heq]
  rfl

theorem OpenedFrom.logs {config : Config} (h : OpenedFrom dir config dir' e) :
    Logs dir' e ∧ e.liveLogs.flatMap (e.recordsOf dir') = dir.allRecords := by
  obtain ⟨r, heq, ⟨lastSeq, hrecover⟩, hlookup, -⟩ := h.fresh
  have hopen : e.openLogFiles = [(e.walNumber, Shared.new config.sync r)] := by rw [heq]; rfl
  have hrotating : e.rotating.toList = [] := by rw [heq]; rfl
  have hlive := h.liveLogs
  have hl : Logs dir' e := {
    calm := fun p hp => by
      rw [hopen, List.mem_singleton] at hp
      subst hp
      exact ⟨Shared.Calm.new (intact_of_recover hrecover), by rw [heq]; rfl⟩
    clients := fun client _ => by rw [heq]; rfl
    rotating := fun hne => by rw [heq] at hne; exact absurd rfl hne
    retired := fun p hp => by rw [heq] at hp; cases hp
    numbers := by rw [hopen]; exact List.pairwise_singleton _ _
    current := h.activeLogs
    sorted := by rw [hlive, hrotating, List.append_nil]; exact h.sorted
    below := by rw [hlive, hrotating, List.append_nil]; exact h.logs_lt
    known := fun n hn => by
      rw [hlive, hrotating, List.append_nil]
      exact (h.logs_mem n).mp hn
    present := fun n hn => (h.logs_mem n).mpr (hlive ▸ hn)
    files := fun p hp _ => by
      rw [hopen, List.mem_singleton] at hp
      subst hp
      exact hlookup
    fresh := fun n hn => by rw [heq] at hn; cases hn
    compacts := by rw [heq]; rfl }
  refine ⟨hl, ?_⟩
  have hrecords : e.liveLogs.flatMap (e.recordsOf dir') = dir'.records e.state.activeLogs := by
    rw [hlive, Dir.records]
    refine List.flatMap_congr fun n _ => ?_
    by_cases hn : n = e.walNumber
    · subst hn
      rw [hl.recordsOf_open (p := (e.walNumber, Shared.new config.sync r)) (by rw [hopen]; simp),
        hlookup]
      exact List.append_nil _
    · refine recordsOf_closed fun p hp heq' => hn ?_
      rw [hopen, List.mem_singleton] at hp
      rw [← heq', hp]
  rw [hrecords, Dir.records_eq_allRecords h.sorted fun n hn => (h.logs_mem n).mp hn]
  exact h.kept.allRecords

end

end Lsmkv
