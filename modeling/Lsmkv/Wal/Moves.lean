import Lsmkv.Wal.Shared

/-!
# What a step of a thread in a log can do

`Moves s t event s'` lists the outcomes of the steps of a thread, one constructor for each, with
what has to hold for it; `moves_of_step` reads them off `Shared.step`.  The facts that need no more
than that list follow: a step moves one thread (`step_thread`), and it leaves the records alone,
encodes the next one or writes the buffer out (`step_log`).
-/

namespace Lsmkv.Wal.Shared

open Record Replay

/-- The outcomes of the steps of a thread. -/
inductive Moves (s : Shared) (t : Thread) : Event → Shared → Prop
  | report {key : Bytes} {value : Option Bytes} (hpc : s.thread t = .idle)
      (hback : s.backgroundError = true) :
      Moves s t (.append key value) { s with backgroundError := false }
  | call {key : Bytes} {value : Option Bytes} (hpc : s.thread t = .idle) (ht : t ≠ .syncer) :
      Moves s t (.append key value) (s.goto t (.called key value))
  | refuse {key : Bytes} {value : Option Bytes} (hpc : s.thread t = .called key value)
      (hfailed : s.failed = true) : Moves s t .accept (s.fail t)
  | accept {key : Bytes} {value : Option Bytes} (hpc : s.thread t = .called key value)
      (hfailed : s.failed = false) : Moves s t .accept (s.goto t (.accepted key value))
  | tooLarge {key : Bytes} {value : Option Bytes} (hpc : s.thread t = .accepted key value) :
      Moves s t .encode (s.fail t)
  | encode {e : Entry} (hpc : s.thread t = .accepted e.key e.value) (hlock : s.lock = none)
      (hseq : e.seq = s.lastSeq + 1) (hfits : Fits e) :
      Moves s t .encode
        (({ s with toLog := s.push e (s.buf ++ frame e), lock := some t } : Shared).goto t
          (.encoded e))
  | buffer {e : Entry} (hpc : s.thread t = .accepted e.key e.value) (hlock : s.lock = none)
      (hseq : e.seq = s.lastSeq + 1) (hfits : Fits e) (hpolicy : s.policy ≠ .always)
      (hsmall : (s.buf ++ frame e).length < maxPendingBytes) :
      Moves s t .encode
        (({ s with toLog := s.push e (s.buf ++ frame e) } : Shared).release t e)
  | writeFail {e : Entry} {fault : Option ℕ} (hpc : s.thread t = .encoded e)
      (hwrite : (s.writePending fault).2 = false) :
      Moves s t (.write fault)
        (({ s with toLog := (s.writePending fault).1, lock := none } : Shared).fail t)
  | writeAlways {e : Entry} {fault : Option ℕ} (hpc : s.thread t = .encoded e)
      (hwrite : (s.writePending fault).2 = true)
      (hpolicy : (s.writePending fault).1.policy = .always) :
      Moves s t (.write fault)
        (({ s with toLog := (s.writePending fault).1 } : Shared).goto t (.unflushed e))
  | write {e : Entry} {fault : Option ℕ} (hpc : s.thread t = .encoded e)
      (hwrite : (s.writePending fault).2 = true) :
      Moves s t (.write fault)
        (({ s with toLog := (s.writePending fault).1 } : Shared).release t e)
  | beginFlush {e : Entry} (hpc : s.thread t = .unflushed e) :
      Moves s t .beginFlush (s.goto t (.flushing e s.file))
  | endFlush {e : Entry} {begun : Bytes} (hpc : s.thread t = .flushing e begun) :
      Moves s t (.endFlush true)
        (({ s with synced := s.synced ++ [begun] } : Shared).release t e)
  | endFlushFail {e : Entry} {begun : Bytes} (hpc : s.thread t = .flushing e begun) :
      Moves s t (.endFlush false) (({ s with lock := none } : Shared).fail t)
  | sync (hpc : s.thread t = .idle) : Moves s t .sync (s.goto t (.waiting s.lastSeq none))
  | covered {seq : ℕ} (hpc : s.thread t = .waiting seq none) (hdurable : seq ≤ s.durable) :
      Moves s t .check (s.goto t .idle)
  | acknowledge {seq : ℕ} {e : Entry} (hpc : s.thread t = .waiting seq (some e))
      (hdurable : seq ≤ s.durable) : Moves s t .check (s.acknowledge t e)
  | giveUp {seq : ℕ} {record : Option Entry} (hpc : s.thread t = .waiting seq record)
      (hfailed : s.failed = true) : Moves s t .check (s.fail t)
  | own {seq : ℕ} {record : Option Entry} (hpc : s.thread t = .waiting seq record) :
      Moves s t .check (({ s with inProgress := true } : Shared).goto t (.owning seq record))
  | drainFail {seq : ℕ} {record : Option Entry} {fault : Option ℕ}
      (hpc : s.thread t = .owning seq record) (hlock : s.lock = none)
      (hwrite : (s.writePending fault).2 = false) :
      Moves s t (.write fault)
        (({ s with toLog := (s.writePending fault).1 } : Shared).goto t (.flushed seq record none))
  | drain {seq : ℕ} {record : Option Entry} {fault : Option ℕ}
      (hpc : s.thread t = .owning seq record) (hlock : s.lock = none)
      (hwrite : (s.writePending fault).2 = true) :
      Moves s t (.write fault)
        (({ s with toLog := (s.writePending fault).1 } : Shared).goto t
          (.drained seq record (s.writePending fault).1.written))
  | beginSync {seq : ℕ} {record : Option Entry} {target : ℕ}
      (hpc : s.thread t = .drained seq record target) :
      Moves s t .beginFlush (s.goto t (.syncing seq record target s.file))
  | endSync {seq : ℕ} {record : Option Entry} {target : ℕ} {begun : Bytes}
      (hpc : s.thread t = .syncing seq record target begun) :
      Moves s t (.endFlush true)
        (({ s with synced := s.synced ++ [begun] } : Shared).goto t
          (.flushed seq record (some target)))
  | endSyncFail {seq : ℕ} {record : Option Entry} {target : ℕ} {begun : Bytes}
      (hpc : s.thread t = .syncing seq record target begun) :
      Moves s t (.endFlush false) (s.goto t (.flushed seq record none))
  | publish {seq : ℕ} {record : Option Entry} {target : ℕ}
      (hpc : s.thread t = .flushed seq record (some target)) :
      Moves s t .publish
        (({ s with inProgress := false, durable := max s.durable target } : Shared).goto t
          (.waiting seq record))
  | publishFail {seq : ℕ} {record : Option Entry} (hpc : s.thread t = .flushed seq record none) :
      Moves s t .publish (({ s with inProgress := false } : Shared).fail t)
  | resume {e : Entry} (hpc : s.thread t = .returned e) : Moves s t .resume (s.goto t .idle)

section

variable {s s' : Shared} {t : Thread}

/-- What encoding can do: refuse the record, keep the append lock to write, or let go of it. -/
theorem moves_of_encodeRecord {key : Bytes} {value : Option Bytes}
    (hpc : s.thread t = .accepted key value) (h : s.encodeRecord t key value = some s') :
    Moves s t .encode s' := by
  unfold Shared.encodeRecord at h
  dsimp only at h
  split_ifs at h with hguard
  obtain ⟨hlock, hlimit⟩ := hguard
  set e : Entry := ⟨key, s.lastSeq + 1, value⟩
  by_cases hpayload : (payload e).length < u32Limit
  · have hencode : Record.encode s.buf (s.lastSeq + 1) key value = (.ok (), s.buf ++ frame e) :=
      encode_of_fits s.buf hpayload
    rw [hencode] at h
    dsimp only at h
    split_ifs at h with hwrite
    · cases h
      exact .encode (e := e) hpc hlock rfl ⟨hlimit, hpayload⟩
    · rw [not_or, not_le] at hwrite
      cases h
      exact .buffer (e := e) hpc hlock rfl ⟨hlimit, hpayload⟩ hwrite.1 hwrite.2
  · obtain ⟨len, hencode⟩ := encode_of_not_fits s.buf hpayload
    have hencode' :
        Record.encode s.buf (s.lastSeq + 1) key value = (.error (.tooLarge len), s.buf) :=
      hencode
    rw [hencode'] at h
    cases h
    exact .tooLarge hpc

theorem moves_of_checkDurable {seq : ℕ} {record : Option Entry}
    (hpc : s.thread t = .waiting seq record) (h : s.checkDurable t seq record = some s') :
    Moves s t .check s' := by
  unfold Shared.checkDurable at h
  split_ifs at h with hdurable hfailed
  · cases record with
    | none =>
      cases h
      exact .covered hpc hdurable
    | some e =>
      cases h
      exact .acknowledge hpc hdurable
  · cases h
    exact .giveUp hpc hfailed
  · cases h
    exact .own hpc

/-- **Every step is one of the moves.** -/
theorem moves_of_step {event : Event} (h : s.step (t, event) = some s') : Moves s t event s' := by
  unfold Shared.step at h
  dsimp only at h
  split at h
  · rename_i hpc
    split_ifs at h with ht hback
    · cases h
      exact .report hpc hback
    · cases h
      exact .call hpc ht
  · rename_i hpc
    split_ifs at h with hfailed
    · cases h
      exact .refuse hpc hfailed
    · cases h
      exact .accept hpc (Bool.not_eq_true _ ▸ hfailed)
  · rename_i hpc
    exact moves_of_encodeRecord hpc h
  · rename_i e fault hpc
    split at h <;> rename_i log hw
    · cases h
      have := Moves.writeFail hpc (show (s.writePending fault).2 = false by rw [hw])
      rwa [hw] at this
    · split_ifs at h with hpolicy
      · cases h
        have := Moves.writeAlways hpc (show (s.writePending fault).2 = true by rw [hw])
          (by rw [hw]; exact hpolicy)
        rwa [hw] at this
      · cases h
        have := Moves.write hpc (show (s.writePending fault).2 = true by rw [hw])
        rwa [hw] at this
  · rename_i hpc
    cases h
    exact .beginFlush hpc
  · rename_i ok hpc
    cases ok with
    | true =>
      cases h
      exact .endFlush hpc
    | false =>
      cases h
      exact .endFlushFail hpc
  · rename_i hpc
    split_ifs at h
    cases h
    exact .sync hpc
  · rename_i hpc
    exact moves_of_checkDurable hpc h
  · rename_i seq record fault hpc
    split_ifs at h with hlock
    split at h <;> rename_i log hw
    · cases h
      have := Moves.drainFail hpc hlock (show (s.writePending fault).2 = false by rw [hw])
      rwa [hw] at this
    · cases h
      have := Moves.drain hpc hlock (show (s.writePending fault).2 = true by rw [hw])
      rwa [hw] at this
  · rename_i hpc
    cases h
    exact .beginSync hpc
  · rename_i ok hpc
    cases ok with
    | true =>
      cases h
      exact .endSync hpc
    | false =>
      cases h
      exact .endSyncFail hpc
  · rename_i outcome hpc
    cases outcome with
    | none =>
      cases h
      exact .publishFail hpc
    | some target =>
      cases h
      exact .publish hpc
  · rename_i hpc
    cases h
    exact .resume hpc
  · cases h

/-- A step moves one thread. -/
theorem step_thread {event : Event} (h : s.step (t, event) = some s') {u : Thread} (hu : u ≠ t) :
    s'.thread u = s.thread u := by
  cases moves_of_step h with
  | report => rfl
  | buffer | write | endFlush => exact thread_release_of_ne _ _ hu
  | _ => exact Function.update_of_ne hu _ _

/-! ### The records -/

/-- What a step does to the records: nothing, encode the next one, or write the buffer out. -/
theorem step_log {label : Thread × Event} (h : s.step label = some s') :
    s'.toLog = s.toLog
      ∨ (∃ e, e.seq = s.lastSeq + 1 ∧ Fits e ∧ s'.toLog = s.push e (s.buf ++ frame e))
      ∨ ∃ fault, label.2 = .write fault ∧ s'.toLog = (s.writePending fault).1 := by
  obtain ⟨t, event⟩ := label
  cases moves_of_step h with
  | encode _ _ hseq hfits => exact Or.inr (Or.inl ⟨_, hseq, hfits, rfl⟩)
  | buffer _ _ hseq hfits => exact Or.inr (Or.inl ⟨_, hseq, hfits, by simp⟩)
  | writeFail | writeAlways | drainFail | drain => exact Or.inr (Or.inr ⟨_, rfl, rfl⟩)
  | write => exact Or.inr (Or.inr ⟨_, rfl, by simp⟩)
  | endFlush => exact Or.inl (by simp)
  | _ => exact Or.inl rfl

/-- No step changes the policy or what the log was opened with. -/
theorem step_policy {label : Thread × Event} (h : s.step label = some s') :
    s'.policy = s.policy ∧ s'.opened = s.opened := by
  rcases step_log h with hlog | ⟨e, -, -, hlog⟩ | ⟨fault, -, hlog⟩
  · rw [hlog]
    exact ⟨rfl, rfl⟩
  · rw [hlog]
    exact ⟨rfl, rfl⟩
  · obtain ⟨hpolicy, hopened, -⟩ := s.toLog.writePending_spec fault
    rw [hlog]
    exact ⟨hpolicy, hopened⟩

/-- No step takes a record back. -/
theorem step_appended {label : Thread × Event} (h : s.step label = some s') :
    s.appended <+: s'.appended := by
  rcases step_log h with hlog | ⟨e, -, -, hlog⟩ | ⟨fault, -, hlog⟩
  · rw [hlog]
  · rw [hlog]
    exact List.prefix_append _ _
  · rw [hlog, (s.toLog.writePending_spec fault).2.2.1]

end

end Lsmkv.Wal.Shared
