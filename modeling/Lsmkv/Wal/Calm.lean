import Lsmkv.Wal.GroupCommit

/-!
# A log whose writes and flushes succeed

While no operation on the file fails, no append fails after its record was encoded: every record is
on its way to a return, carried by the thread that encoded it (`Held`), or its append has returned.
`Calm` is the invariant of such a log.

Its file holds the records it was opened with and the first ones appended since
(`Calm.contents_cut`).  Under `Always` and `Group` nothing is left in the buffer once no thread
holds a record (`Calm.buf_eq_nil`).
-/

namespace Lsmkv.Wal

open Record Replay

/-- The record a thread has encoded and not brought back to its caller yet. -/
def Pc.record : Pc → Option Entry
  | .encoded e | .unflushed e | .flushing e _ | .returned e => some e
  | .waiting _ record | .owning _ record | .drained _ record _ | .syncing _ record _ _
  | .flushed _ record _ => record
  | .idle | .called _ _ | .accepted _ _ => none

/-- Whether a thread is in an append. -/
def Pc.appends : Pc → Bool
  | .called _ _ | .accepted _ _ => true
  | pc => pc.record.isSome

/-- The number a call of `sync` waits for. -/
def Pc.awaits : Pc → Option ℕ
  | .waiting seq none | .owning seq none | .drained seq none _ | .syncing seq none _ _
  | .flushed seq none _ => some seq
  | _ => none

theorem Pc.appends_of_record {pc : Pc} {e : Entry} (h : pc.record = some e) :
    pc.appends = true := by
  unfold Pc.appends
  split
  · rfl
  · rfl
  · rw [h]
    rfl

namespace Shared

/-- A thread holds the record. -/
def Held (s : Shared) (e : Entry) : Prop := ∃ t, (s.thread t).record = some e

/-- A log none of whose writes and flushes has failed. -/
structure Calm (s : Shared) : Prop where
  inv : s.Inv
  failed : s.failed = false
  outcome : ∀ t seq record, s.thread t ≠ .flushed seq record none
  settled : ∀ e ∈ s.appended, e ∈ s.returned ∨ s.Held e
  syncer : (s.thread .syncer).appends = false

section

variable {s s' : Shared} {t : Thread} {event : Event}

theorem writePending_none_true (l : Log) : (l.writePending none).2 = true := by
  unfold Log.writePending
  split_ifs <;> rfl

/-! ### The thread that moves -/

theorem record_release (s : Shared) (t : Thread) (e : Entry) :
    ((s.release t e).thread t).record = some e := by
  rcases s.thread_release_self t e with h | h <;> rw [h] <;> rfl

/-- A step that succeeds keeps the record of the thread that moves, until its caller has it. -/
theorem Calm.record_step (hc : s.Calm) (hf : event.faultless = true) (hne : event ≠ .resume)
    (h : Moves s t event s') {e : Entry} (he : (s.thread t).record = some e) :
    (s'.thread t).record = some e := by
  cases h with
  | report hpc | call hpc | refuse hpc | accept hpc | tooLarge hpc | encode hpc | buffer hpc
  | sync hpc | covered hpc =>
    rw [hpc] at he
    cases he
  | @writeFail _ fault _ hwrite | @drainFail _ _ fault _ _ hwrite =>
    obtain rfl : fault = none := by simpa [Event.faultless] using hf
    rw [writePending_none_true] at hwrite
    cases hwrite
  | giveUp _ hfailed => exact absurd hfailed (by simp [hc.failed])
  | publishFail hpc => exact absurd hpc (hc.outcome t _ _)
  | endFlushFail | endSyncFail => cases hf
  | resume => exact absurd rfl hne
  | write hpc | endFlush hpc =>
    rw [hpc] at he
    obtain rfl := Option.some.inj he
    exact record_release _ t _
  | acknowledge hpc =>
    rw [hpc] at he
    rw [thread_acknowledge_self]
    exact he
  | writeAlways hpc | beginFlush hpc | own hpc | drain hpc | beginSync hpc | endSync hpc
  | publish hpc =>
    rw [hpc] at he
    rw [thread_goto_self]
    exact he

/-- A record appended by a step is held by the thread that moved. -/
theorem record_appended (h : Moves s t event s') : s'.appended = s.appended
    ∨ ∃ e, s'.appended = s.appended ++ [e] ∧ (s'.thread t).record = some e := by
  cases h with
  | encode => exact Or.inr ⟨_, rfl, by rw [thread_goto_self]; rfl⟩
  | @buffer e => exact Or.inr ⟨e, by rw [toLog_release]; rfl, record_release _ t e⟩
  | writeFail | writeAlways | drainFail | drain =>
    exact Or.inl (s.toLog.writePending_spec _).2.2.1
  | write => exact Or.inl (by rw [toLog_release]; exact (s.toLog.writePending_spec _).2.2.1)
  | endFlush => exact Or.inl (by rw [toLog_release])
  | _ => exact Or.inl rfl

theorem mem_returned_release (s : Shared) (t : Thread) (e : Entry) {f : Entry}
    (hf : f ∈ s.returned) : f ∈ (s.release t e).returned := by
  unfold release
  dsimp only
  split_ifs
  · exact hf
  · exact List.mem_append_left _ hf

theorem mem_returned_step (h : Moves s t event s') {f : Entry} (hf : f ∈ s.returned) :
    f ∈ s'.returned := by
  cases h with
  | buffer | write | endFlush => exact mem_returned_release _ _ _ hf
  | acknowledge => exact List.mem_append_left _ hf
  | _ => exact hf

/-! ### The records that are held -/

/-- A step that succeeds lets go of a record only when its caller has it. -/
theorem Calm.held_step (hc : s.Calm) (hf : event.faultless = true) (hne : event ≠ .resume)
    (h : s.step (t, event) = some s') {e : Entry} (he : s.Held e) : s'.Held e := by
  obtain ⟨u, hu⟩ := he
  by_cases hut : u = t
  · subst hut
    exact ⟨u, hc.record_step hf hne (moves_of_step h) hu⟩
  · exact ⟨u, by rw [step_thread h hut]; exact hu⟩

/-- A caller that takes its record leaves the log as it is. -/
theorem log_resume (h : s.step (t, .resume) = some s') :
    s'.toLog = s.toLog ∧ s'.returned = s.returned := by
  cases moves_of_step h with
  | resume => exact ⟨rfl, rfl⟩

/-- A caller takes its own record. -/
theorem held_resume (h : s.step (t, .resume) = some s') {e f : Entry}
    (hpc : s.thread t = .returned e) (hf : s.Held f) : f = e ∨ s'.Held f := by
  obtain ⟨u, hu⟩ := hf
  by_cases hut : u = t
  · rw [hut, hpc] at hu
    exact Or.inl (Option.some.inj hu).symm
  · exact Or.inr ⟨u, by rw [step_thread h hut]; exact hu⟩

/-- A record that was just appended is held. -/
theorem held_appended (h : s.step (t, event) = some s') {e : Entry} (he : e ∈ s'.appended) :
    e ∈ s.appended ∨ s'.Held e := by
  rcases record_appended (moves_of_step h) with happ | ⟨f, happ, hf⟩
  · exact Or.inl (happ ▸ he)
  · rw [happ] at he
    rcases List.mem_append.mp he with he | he
    · exact Or.inl he
    · rw [List.mem_singleton.mp he]
      exact Or.inr ⟨t, hf⟩

/-! ### Every step -/

theorem Calm.failed_step (hc : s.Calm) (hf : event.faultless = true)
    (h : s.step (t, event) = some s') : s'.failed = false := by
  rcases step_log h with hlog | ⟨e, -, -, hlog⟩ | ⟨fault, hevent, hlog⟩
  · rw [hlog, hc.failed]
  · rw [hlog]
    exact hc.failed
  · obtain rfl : event = .write fault := hevent
    obtain rfl : fault = none := by simpa [Event.faultless] using hf
    rw [hlog]
    unfold Log.writePending
    split_ifs <;> exact hc.failed

theorem outcome_step (hf : event.faultless = true) (h : Moves s t event s')
    (seq : ℕ) (record : Option Entry) : s'.thread t ≠ .flushed seq record none := by
  cases h with
  | report hpc =>
    intro heq
    rw [show s.thread t = .flushed seq record none from heq] at hpc
    cases hpc
  | buffer | write | endFlush =>
    intro heq
    rcases thread_release_self _ t _ with h | h <;> cases h.symm.trans heq
  | @drainFail _ _ fault _ _ hwrite =>
    obtain rfl : fault = none := by simpa [Event.faultless] using hf
    rw [writePending_none_true] at hwrite
    cases hwrite
  | endSyncFail => cases hf
  | _ =>
    intro heq
    have := (Function.update_self _ _ _).symm.trans heq
    cases this

/-- The background thread never appends. -/
theorem appends_step (h : Moves s .syncer event s') (ht : (s.thread .syncer).appends = false) :
    (s'.thread .syncer).appends = false := by
  cases h with
  | report => exact ht
  | call _ hne => exact absurd rfl hne
  | refuse hpc | accept hpc | tooLarge hpc | encode hpc | buffer hpc | writeFail hpc
  | writeAlways hpc | write hpc | beginFlush hpc | endFlush hpc | endFlushFail hpc
  | acknowledge hpc =>
    rw [hpc] at ht
    cases ht
  | sync | covered | resume =>
    rw [thread_goto_self]
    rfl
  | giveUp | publishFail =>
    rw [thread_fail_self]
    rfl
  | own hpc | drainFail hpc | drain hpc | beginSync hpc | endSync hpc | endSyncFail hpc
  | publish hpc =>
    rw [hpc] at ht
    rw [thread_goto_self]
    exact ht

/-- **A step that succeeds keeps the log calm.** -/
theorem Calm.step (hc : s.Calm) (hf : event.faultless = true) (h : s.step (t, event) = some s') :
    s'.Calm where
  inv := hc.inv.step h
  failed := hc.failed_step hf h
  outcome := by
    intro u seq record
    by_cases hut : u = t
    · exact hut ▸ outcome_step hf (moves_of_step h) seq record
    · rw [step_thread h hut]
      exact hc.outcome u seq record
  settled := by
    intro e he
    rcases held_appended h he with he | he
    · rcases hc.settled e he with hret | hheld
      · exact Or.inl (mem_returned_step (moves_of_step h) hret)
      · by_cases hne : event = .resume
        · subst hne
          cases moves_of_step h with
          | resume hpc =>
            rcases held_resume h hpc hheld with rfl | hheld
            · exact Or.inl (hc.inv.fact_of_eq hpc)
            · exact Or.inr hheld
        · exact Or.inr (hc.held_step hf hne h hheld)
    · exact Or.inr he
  syncer := by
    by_cases hut : t = .syncer
    · subst hut
      exact appends_step (moves_of_step h) hc.syncer
    · rw [step_thread h (Ne.symm hut)]
      exact hc.syncer

theorem Calm.new {policy : SyncPolicy} {r : Recovered} (hr : Intact r.file) :
    (Shared.new policy r).Calm where
  inv := Inv.new hr
  failed := rfl
  outcome := fun _ _ _ h => nomatch h
  settled := fun _ h => nomatch h
  syncer := rfl

/-- The background thread appends no records. -/
theorem Calm.appended_syncer (hc : s.Calm) (hf : event.faultless = true)
    (h : s.step (.syncer, event) = some s') : s'.appended = s.appended := by
  rcases record_appended (moves_of_step h) with happ | ⟨e, -, he⟩
  · exact happ
  · have := (hc.step hf h).syncer
    rw [Pc.appends_of_record he] at this
    cases this

/-- No thread holds a record in a log whose clients are all outside. -/
theorem Calm.not_held (hc : s.Calm) (h : ∀ client, s.thread (.client client) = .idle) (e : Entry) :
    ¬ s.Held e := by
  rintro ⟨t, ht⟩
  cases t with
  | client id =>
    rw [h id] at ht
    cases ht
  | syncer =>
    have := hc.syncer
    rw [Pc.appends_of_record ht] at this
    cases this

/-- A call of `sync` waits for the number that was the last one when it began. -/
theorem awaits_step (h : Moves s t event s') {seq : ℕ} (hseq : (s'.thread t).awaits = some seq) :
    (s.thread t).awaits = some seq ∨ event = .sync ∧ seq = s.lastSeq := by
  have hrelease : ∀ (s : Shared) (e : Entry), ((s.release t e).thread t).awaits = none := by
    intro s e
    rcases s.thread_release_self t e with h | h <;> rw [h] <;> rfl
  cases h with
  | report => exact Or.inl hseq
  | sync =>
    rw [thread_goto_self] at hseq
    exact Or.inr ⟨rfl, (Option.some.inj hseq).symm⟩
  | refuse | tooLarge | writeFail | endFlushFail | giveUp | publishFail =>
    rw [thread_fail_self] at hseq
    cases hseq
  | buffer | write | endFlush =>
    rw [hrelease] at hseq
    cases hseq
  | acknowledge =>
    rw [thread_acknowledge_self] at hseq
    cases hseq
  | call | accept | encode | writeAlways | beginFlush | covered | resume =>
    rw [thread_goto_self] at hseq
    cases hseq
  | @own _ record hpc | @drainFail _ record _ hpc | @drain _ record _ hpc
  | @beginSync _ record _ hpc
  | @endSync _ record _ _ hpc | @endSyncFail _ record _ _ hpc | @publish _ record _ hpc =>
    rw [thread_goto_self] at hseq
    rw [hpc]
    cases record with
    | none => exact Or.inl hseq
    | some e => cases hseq

/-! ### What a step adds -/

/-- What a log gains: at most the next record, which a thread then holds. -/
structure Grows (s s' : Shared) : Prop where
  opened : s'.opened = s.opened
  appended : s'.appended = s.appended ∧ s'.lastSeq = s.lastSeq
    ∨ ∃ e, s'.appended = s.appended ++ [e] ∧ e.seq = s.lastSeq + 1 ∧ s'.lastSeq = e.seq ∧ s'.Held e
  returned : ∀ e ∈ s.returned, e ∈ s'.returned
  held : ∀ e, s.Held e → s'.Held e

theorem Grows.refl (s : Shared) : Grows s s :=
  ⟨rfl, Or.inl ⟨rfl, rfl⟩, fun _ h => h, fun _ h => h⟩

theorem Grows.lastSeq_le (h : Grows s s') : s.lastSeq ≤ s'.lastSeq := by
  rcases h.appended with ⟨-, hlast⟩ | ⟨e, -, hseq, hlast, -⟩ <;> omega

theorem Calm.grows (hc : s.Calm) (hf : event.faultless = true) (hne : event ≠ .resume)
    (h : s.step (t, event) = some s') : Grows s s' where
  opened := (step_policy h).2
  appended := by
    have hheld : ∀ {e}, s'.appended = s.appended ++ [e] → s'.Held e := fun {e} happ => by
      rcases record_appended (moves_of_step h) with heq | ⟨f, heq, hf⟩
      · simp [heq] at happ
      · rw [heq, List.append_cancel_left_eq, List.cons.injEq] at happ
        exact ⟨t, happ.1 ▸ hf⟩
    rcases step_log h with hlog | ⟨e, hseq, -, hlog⟩ | ⟨fault, -, hlog⟩
    · rw [hlog]
      exact Or.inl ⟨rfl, rfl⟩
    · have happ : s'.appended = s.appended ++ [e] := by rw [hlog]; rfl
      exact Or.inr ⟨e, happ, hseq, by rw [hlog]; rfl, hheld happ⟩
    · obtain ⟨-, -, happ, hlast, -⟩ := s.toLog.writePending_spec fault
      rw [hlog]
      exact Or.inl ⟨happ, hlast⟩
  returned := fun _ => mem_returned_step (moves_of_step h)
  held := fun _ => hc.held_step hf hne h

/-! ### The file and the buffer -/

/-- Only a write changes the file. -/
theorem file_of_not_write (h : s.step (t, event) = some s')
    (hevent : ∀ fault, event ≠ .write fault) : s'.file = s.file := by
  rcases step_log h with hlog | ⟨e, -, -, hlog⟩ | ⟨fault, hwrite, -⟩
  · rw [hlog]
  · rw [hlog]
    rfl
  · exact absurd hwrite (hevent fault)

theorem Calm.intact_file (hc : s.Calm) : Intact s.file
    ∧ contents s.file = contents s.opened.file ++ s.appended.take s.taken := by
  rw [hc.inv.log.file hc.failed]
  exact hc.inv.log.intact.append fun e he => hc.inv.log.fits e (List.mem_of_mem_take he)

/-- **A kill in the middle of a write** leaves the first records, and all those written before. -/
theorem Calm.contents_cut (hc : s.Calm) (n : ℕ) : ∃ j, s.taken ≤ j
    ∧ contents (s.file ++ s.buf.take n) = contents s.opened.file ++ s.appended.take j := by
  obtain ⟨hintact, hfile⟩ := hc.intact_file
  have hfits : ∀ e ∈ s.appended.drop s.taken, Fits e := fun e he =>
    hc.inv.log.fits e (List.mem_of_mem_drop he)
  obtain ⟨j, hj⟩ := hintact.append_take hfits n
  refine ⟨s.taken + j, Nat.le_add_right _ _, ?_⟩
  rw [hc.inv.log.buf hc.failed, hj, hfile, List.append_assoc, ← List.take_add]

/-- What is left of the buffer is written when the log is dropped. -/
theorem Calm.contents_drained (hc : s.Calm) :
    contents (s.writePending none).1.file = contents s.opened.file ++ s.appended := by
  rw [Log.file_writePending_none]
  exact (hc.inv.log.intact_drained hc.failed).2

/-- A log with nothing in its buffer has written everything. -/
theorem Calm.written_eq (hc : s.Calm) (hbuf : s.buf = []) : s.written = s.lastSeq := by
  have hdrop := hc.inv.log.buf hc.failed
  rw [hbuf] at hdrop
  have hle := length_le_length_frames (s.appended.drop s.taken)
  rw [← hdrop, List.length_nil, List.length_drop] at hle
  have := hc.inv.log.last
  have := hc.inv.log.add_taken
  have := hc.inv.log.written_le
  omega

/-- Only a write of something moves `written`, and it moves it on. -/
theorem Calm.written_step (hc : s.Calm) (h : s.step (t, event) = some s') : s.written ≤ s'.written
    ∧ (s'.written = s.written ∨ (∃ fault, event = .write fault) ∧ s.buf ≠ []) := by
  rcases step_log h with hlog | ⟨e, -, -, hlog⟩ | ⟨fault, hwrite, hlog⟩
  · rw [hlog]
    exact ⟨le_rfl, Or.inl rfl⟩
  · rw [hlog]
    exact ⟨le_rfl, Or.inl rfl⟩
  · rw [hlog]
    refine ⟨hc.inv.log.written_le_writePending fault, ?_⟩
    by_cases hbuf : s.buf = []
    · rw [Log.writePending_nil hbuf]
      exact Or.inl rfl
    · exact Or.inr ⟨⟨fault, hwrite⟩, hbuf⟩

/-- An empty buffer stays empty unless a record is encoded. -/
theorem buf_step (h : s.step (t, event) = some s') (happended : s'.appended = s.appended)
    (hbuf : s.buf = []) : s'.buf = [] := by
  rcases step_log h with hlog | ⟨e, -, -, hlog⟩ | ⟨fault, -, hlog⟩
  · rw [hlog]
    exact hbuf
  · rw [hlog] at happended
    simp [Log.push] at happended
  · rw [hlog]
    exact (s.toLog.writePending_spec fault).2.2.2.2.1

/-- What an append returned for is in the file, unless the policy is `Interval`. -/
theorem Calm.returned_le (hc : s.Calm) (hpolicy : s.policy ≠ .interval) {e : Entry}
    (he : e ∈ s.returned) : e.seq ≤ s.written := by
  obtain ⟨-, halways, hgroup⟩ := hc.inv.done e he
  cases hp : s.policy with
  | always => exact halways hp
  | group => exact (hgroup hp).trans hc.inv.durable_le
  | interval => exact absurd hp hpolicy

/-- Once no thread holds a record, every record is in the file. -/
theorem Calm.buf_eq_nil (hc : s.Calm) (hpolicy : s.policy ≠ .interval)
    (hheld : ∀ e, ¬ s.Held e) : s.buf = [] := by
  have hlast : s.appended.drop s.taken = [] := by
    rw [← (Log.filter_seq_le hc.inv.log.seqs s.taken).2, hc.inv.log.add_taken]
    refine List.filter_eq_nil_iff.mpr fun e he => ?_
    have := hc.returned_le hpolicy ((hc.settled e he).resolve_right (hheld e))
    simpa using this
  rw [hc.inv.log.buf hc.failed, hlast, frames_nil]

end

end Shared

end Lsmkv.Wal
