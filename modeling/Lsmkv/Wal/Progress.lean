import Mathlib.Algebra.Order.BigOperators.Group.Finset
import Lsmkv.Lib.Progress
import Lsmkv.Wal.Calm

/-!
# Every call returns

A thread inside the log waits for two things only: the append lock, and the flush another thread
has in flight.  Whoever holds the one or owns the other can go on (`exists_step`), and every step a
thread takes brings its call closer to its end (`rank_lt`): a flush covers the record of the thread
that owned it, unless a write failed, and then the thread gives up.  So whatever the schedule and
whatever fails, once no new calls come in the threads take a bounded number of steps and every call
has returned (`calls_return`).
-/

namespace Lsmkv.Wal

/-- Whether an event takes a call on, rather than beginning one or handing its record to the
caller. -/
def Event.continues : Event → Bool
  | .append _ _ | .sync | .resume => false
  | _ => true

namespace Pc

/-- Whether the thread holds the append lock. -/
def locks : Pc → Bool
  | encoded _ | unflushed _ | flushing _ _ => true
  | _ => false

/-- Whether the thread owns the flush in flight. -/
def owns : Pc → Bool
  | owning _ _ | drained _ _ _ | syncing _ _ _ _ | flushed _ _ _ => true
  | _ => false

/-- The number a thread in `sync_through` waits for. -/
def awaited : Pc → Option ℕ
  | waiting seq _ | owning seq _ | drained seq _ _ | syncing seq _ _ _ | flushed seq _ _ => some seq
  | _ => none

/-- The number the flush of the thread covers. -/
def target : Pc → Option ℕ
  | drained _ _ target | syncing _ _ target _ => some target
  | flushed _ _ outcome => outcome
  | _ => none

/-- Whether the call is over. -/
def isDone : Pc → Bool
  | idle | returned _ => true
  | _ => false

end Pc

namespace Shared

/-- No thread has to wait for the record `seq` any more. -/
def Settled (s : Shared) (seq : ℕ) : Prop := seq ≤ s.durable ∨ s.failed = true

instance (s : Shared) (seq : ℕ) : Decidable (s.Settled seq) := inferInstanceAs (Decidable (_ ∨ _))

/-- How many steps a thread may still take. -/
def rank (s : Shared) : Pc → ℕ
  | .idle => 0
  | .returned _ => 1
  | .waiting seq _ => if s.Settled seq then 2 else 9
  | .flushed _ _ _ => 5
  | .syncing _ _ _ _ => 6
  | .drained _ _ _ => 7
  | .owning _ _ => 8
  | .flushing _ _ => 10
  | .unflushed _ => 11
  | .encoded _ => 12
  | .accepted _ _ => 13
  | .called _ _ => 14

theorem rank_waiting {s : Shared} {seq : ℕ} (h : s.Settled seq) (record : Option Entry) :
    s.rank (.waiting seq record) = 2 := if_pos h

theorem rank_waiting_of_not {s : Shared} {seq : ℕ} (h : ¬ s.Settled seq) (record : Option Entry) :
    s.rank (.waiting seq record) = 9 := if_neg h

/-- Who holds the append lock and who owns the flush in flight, and what flushes cover. -/
structure Turns (s : Shared) : Prop where
  lock : ∀ t, s.lock = some t ↔ (s.thread t).locks = true
  owner : s.inProgress = true → ∃ t, (s.thread t).owns = true
  awaited : ∀ t, ∀ seq ∈ (s.thread t).awaited, seq ≤ s.lastSeq
  target : ∀ t, ∀ seq ∈ (s.thread t).awaited, ∀ target ∈ (s.thread t).target,
    seq ≤ target ∨ s.failed = true

section

variable {s s' : Shared} {t : Thread} {event : Event}

theorem Turns.new (policy : SyncPolicy) (r : Recovered) : (Shared.new policy r).Turns where
  lock t := by simp [Shared.new, Pc.locks]
  owner h := by cases h
  awaited t seq h := by cases h
  target t seq h := by cases h

/-- A step that moves `t` to `pc`, seen from all threads. -/
theorem Turns.goto (ht : s.Turns) {pc : Pc} (hthread : s'.thread = Function.update s.thread t pc)
    (hlast : s.lastSeq ≤ s'.lastSeq) (hfailed : s.failed = true → s'.failed = true)
    (hlock : s'.lock = some t ↔ pc.locks = true)
    (hothers : ∀ u, u ≠ t → (s'.lock = some u ↔ s.lock = some u))
    (howner : s'.inProgress = true → pc.owns = true ∨ s.inProgress = true
      ∧ (s.thread t).owns = false)
    (hawaited : ∀ seq ∈ pc.awaited, seq ≤ s'.lastSeq)
    (htarget : ∀ seq ∈ pc.awaited, ∀ target ∈ pc.target, seq ≤ target ∨ s'.failed = true) :
    s'.Turns := by
  have hself : s'.thread t = pc := by rw [hthread, Function.update_self]
  have hne : ∀ u, u ≠ t → s'.thread u = s.thread u := fun u hu => by
    rw [hthread, Function.update_of_ne hu]
  refine ⟨fun u => ?_, fun h => ?_, fun u seq h => ?_, fun u seq h target h' => ?_⟩
  · by_cases hu : u = t
    · rw [hu, hself]
      exact hlock
    · rw [hothers u hu, hne u hu]
      exact ht.lock u
  · rcases howner h with h | ⟨hprogress, hnot⟩
    · exact ⟨t, by rw [hself]; exact h⟩
    · obtain ⟨u, hu⟩ := ht.owner hprogress
      have hut : u ≠ t := by
        rintro rfl
        rw [hnot] at hu
        cases hu
      exact ⟨u, by rw [hne u hut]; exact hu⟩
  · by_cases hu : u = t
    · rw [hu, hself] at h
      exact hawaited seq h
    · rw [hne u hu] at h
      exact (ht.awaited u seq h).trans hlast
  · by_cases hu : u = t
    · rw [hu, hself] at h h'
      exact htarget seq h target h'
    · rw [hne u hu] at h h'
      exact (ht.target u seq h target h').imp_right hfailed

/-- Where an append that lets go of the lock goes. -/
theorem release_eq (s : Shared) (t : Thread) (e : Entry) :
    ∃ pc, (pc = .waiting e.seq (some e) ∨ pc = .returned e)
      ∧ (s.release t e).thread = Function.update s.thread t pc
      ∧ (s.release t e).lock = none ∧ (s.release t e).inProgress = s.inProgress
      ∧ (s.release t e).durable = s.durable := by
  unfold release
  dsimp only
  split_ifs
  · exact ⟨_, Or.inl rfl, rfl, rfl, rfl, rfl⟩
  · exact ⟨_, Or.inr rfl, rfl, rfl, rfl, rfl⟩

/-- A call that returns an error, or one that is over, holds nothing. -/
theorem Turns.leave (ht : s.Turns) {lock : Option Thread} {inProgress : Bool}
    {backgroundError : Bool} {log : Log} (hlast : log.lastSeq = s.lastSeq)
    (hfailed : s.failed = true → log.failed = true)
    (hlock : lock = s.lock ∧ (s.thread t).locks = false ∨ lock = none ∧ (s.thread t).locks = true)
    (howner : inProgress = true → s.inProgress = true ∧ (s.thread t).owns = false) :
    Turns { s with toLog := log, lock := lock, inProgress := inProgress
                   backgroundError := backgroundError
                   thread := Function.update s.thread t .idle } := by
  refine ht.goto rfl hlast.ge hfailed ?_ (fun u hu => ?_) (fun h => Or.inr (howner h))
    (fun seq h => (by cases h)) fun seq h => (by cases h)
  · rcases hlock with ⟨rfl, hnot⟩ | ⟨rfl, -⟩
    · rw [ht.lock t, hnot]
      exact Iff.rfl
    · simp [Pc.locks]
  · rcases hlock with ⟨rfl, -⟩ | ⟨rfl, hlocks⟩
    · exact Iff.rfl
    · have := (ht.lock t).mpr hlocks
      simp [this, Ne.symm hu]

/-- An append lets go of the lock. -/
theorem Turns.release (ht : s.Turns) {log : Log} {synced : List Bytes} {e : Entry}
    (hlast : s.lastSeq ≤ log.lastSeq) (hfailed : s.failed = true → log.failed = true)
    (hlock : s.lock = none ∨ s.lock = some t) (howns : (s.thread t).owns = false)
    (hseq : e.seq ≤ log.lastSeq) :
    (Shared.release { s with toLog := log, synced := synced } t e).Turns := by
  obtain ⟨pc, hpc, hthread, hlock', hprogress, -⟩ :=
    release_eq { s with toLog := log, synced := synced } t e
  have htoLog := toLog_release { s with toLog := log, synced := synced } t e
  refine ht.goto hthread (by rw [htoLog]; exact hlast) (by rw [htoLog]; exact hfailed) ?_
    (fun u hu => ?_) (fun h => Or.inr ⟨hprogress ▸ h, howns⟩) (fun seq h => ?_)
    fun seq h target h' => ?_
  · rw [hlock']
    rcases hpc with rfl | rfl <;> simp [Pc.locks]
  · rw [hlock']
    rcases hlock with hlock | hlock <;> simp [hlock, Ne.symm hu]
  · rw [htoLog]
    rcases hpc with rfl | rfl
    · exact (Option.some.inj h) ▸ hseq
    · cases h
  · rcases hpc with rfl | rfl <;> cases h'

end

end Shared

/-- A log with a failed write stays one. -/
theorem Log.failed_writePending (l : Log) (fault : Option ℕ) (h : l.failed = true) :
    (l.writePending fault).1.failed = true := by
  by_contra hnot
  have := (l.writePending_spec fault).2.2.2.2.2.2 (by simpa using hnot)
  rw [h] at this
  cases this

/-- A log without a failed write whose buffer is empty has written everything. -/
theorem Log.Inv.written_eq {l : Log} (hl : l.Inv) (hfailed : l.failed = false)
    (hbuf : l.buf = []) : l.written = l.lastSeq := by
  have hdrop : l.appended.drop l.taken = [] := by
    have hframes := hl.buf hfailed
    rw [hbuf] at hframes
    cases hrest : l.appended.drop l.taken with
    | nil => rfl
    | cons e rest =>
      rw [hrest, Replay.frames_cons] at hframes
      exact absurd (List.append_eq_nil_iff.mp hframes.symm).1 (Record.frame_ne_nil e)
  have htaken := List.drop_eq_nil_iff.mp hdrop
  have := hl.add_taken
  have := hl.taken_le
  have := hl.last
  omega

namespace Shared

section

variable {s s' : Shared} {t : Thread} {event : Event}

/-- **Every step keeps the turns**, whatever fails. -/
theorem Turns.step (ht : s.Turns) (hi : s.Inv) (h : s.step (t, event) = some s') : s'.Turns := by
  -- a thread that neither takes nor releases anything
  have hgoto : ∀ {pc : Pc}, pc.locks = (s.thread t).locks →
      (pc.owns = true ∨ (s.thread t).owns = false) → (∀ seq ∈ pc.awaited, seq ≤ s.lastSeq) →
      (∀ seq ∈ pc.awaited, ∀ target ∈ pc.target, seq ≤ target ∨ s.failed = true) →
      (s.goto t pc).Turns := fun hlocks howns hawaited htarget =>
    ht.goto rfl le_rfl id (by rw [hlocks]; exact ht.lock t) (fun _ _ => Iff.rfl)
      (fun h => howns.imp_right fun hnot => ⟨h, hnot⟩) hawaited htarget
  have hspec := fun fault => s.toLog.writePending_spec fault
  have hfail := s.toLog.failed_writePending
  cases moves_of_step h with
  | report hpc =>
    exact ⟨ht.lock, ht.owner, ht.awaited, ht.target⟩
  | call hpc | accept hpc =>
    exact hgoto (by rw [hpc]; rfl) (Or.inr (by rw [hpc]; rfl)) (fun _ h => (by cases h))
      fun _ h => (by cases h)
  | refuse hpc | tooLarge hpc | giveUp hpc =>
    exact ht.leave rfl id (Or.inl ⟨rfl, by rw [hpc]; rfl⟩) fun h => ⟨h, by rw [hpc]; rfl⟩
  | resume hpc | covered hpc =>
    exact ht.leave rfl id (Or.inl ⟨rfl, by rw [hpc]; rfl⟩) fun h => ⟨h, by rw [hpc]; rfl⟩
  | @encode e hpc hlock hseq hfits =>
    refine ht.goto rfl (hseq ▸ Nat.le_succ _ : s.lastSeq ≤ e.seq) id
      ⟨fun _ => rfl, fun _ => rfl⟩ (fun u hu => ?_) (fun h => Or.inr ⟨h, by rw [hpc]; rfl⟩)
      (fun _ h => (by cases h)) fun _ h => (by cases h)
    change some t = some u ↔ _
    simp [hlock, Ne.symm hu]
  | @buffer e hpc hlock hseq hfits =>
    exact @Turns.release s t ht (s.push e (s.buf ++ Record.frame e)) s.synced e
      (hseq ▸ Nat.le_succ _ : s.lastSeq ≤ e.seq) id (Or.inl hlock) (by rw [hpc]; rfl) le_rfl
  | @writeFail e fault hpc hwrite =>
    exact ht.leave (hspec fault).2.2.2.1 (hfail fault) (Or.inr ⟨rfl, by rw [hpc]; rfl⟩)
      fun h => ⟨h, by rw [hpc]; rfl⟩
  | @writeAlways e fault hpc hwrite hpolicy =>
    refine ht.goto rfl (hspec fault).2.2.2.1.ge (hfail fault) ?_ (fun _ _ => Iff.rfl)
      (fun h => Or.inr ⟨h, by rw [hpc]; rfl⟩) (fun _ h => (by cases h)) fun _ h => (by cases h)
    exact (ht.lock t).trans (by rw [hpc]; rfl)
  | @write e fault hpc hwrite =>
    obtain ⟨hlock, -, hmem, -⟩ := hi.fact_of_eq hpc
    exact ht.release (hspec fault).2.2.2.1.ge (hfail fault) (Or.inr hlock) (by rw [hpc]; rfl)
      ((hi.log.seq_bounds hmem).2.trans (hspec fault).2.2.2.1.ge)
  | beginFlush hpc =>
    exact hgoto (by rw [hpc]; rfl) (Or.inr (by rw [hpc]; rfl)) (fun _ h => (by cases h))
      fun _ h => (by cases h)
  | endFlush hpc =>
    obtain ⟨hlock, -, -, hmem, -⟩ := hi.fact_of_eq hpc
    exact ht.release le_rfl id (Or.inr hlock) (by rw [hpc]; rfl) (hi.log.seq_bounds hmem).2
  | endFlushFail hpc =>
    exact ht.leave rfl id (Or.inr ⟨rfl, by rw [hpc]; rfl⟩) fun h => ⟨h, by rw [hpc]; rfl⟩
  | sync hpc =>
    refine hgoto (by rw [hpc]; rfl) (Or.inr (by rw [hpc]; rfl)) (fun seq h => ?_)
      fun _ _ _ h => (by cases h)
    exact (Option.some.inj h).ge
  | acknowledge hpc =>
    refine ht.goto rfl le_rfl id ?_ (fun _ _ => Iff.rfl) (fun h => Or.inr ⟨h, by rw [hpc]; rfl⟩)
      (fun _ h => (by cases h)) fun _ h => (by cases h)
    exact (ht.lock t).trans (by rw [hpc]; rfl)
  | own hpc =>
    refine ht.goto rfl le_rfl id ?_ (fun _ _ => Iff.rfl) (fun _ => Or.inl rfl) (fun seq h => ?_)
      fun _ _ _ h => (by cases h)
    · exact (ht.lock t).trans (by rw [hpc]; rfl)
    · exact ht.awaited t seq (by rw [hpc]; exact h)
  | @drainFail seq record fault hpc hlock hwrite =>
    refine ht.goto rfl (hspec fault).2.2.2.1.ge (hfail fault) ?_ (fun _ _ => Iff.rfl)
      (fun _ => Or.inl rfl) (fun seq h => ?_) fun _ _ _ h => (by cases h)
    · exact (ht.lock t).trans (by rw [hpc]; rfl)
    · exact (ht.awaited t seq (by rw [hpc]; exact h)).trans (hspec fault).2.2.2.1.ge
  | @drain seq record fault hpc hlock hwrite =>
    refine ht.goto rfl (hspec fault).2.2.2.1.ge (hfail fault) ?_ (fun _ _ => Iff.rfl)
      (fun _ => Or.inl rfl) (fun seq h => ?_) fun seq h target h' => ?_
    · exact (ht.lock t).trans (by rw [hpc]; rfl)
    · exact (ht.awaited t seq (by rw [hpc]; exact h)).trans (hspec fault).2.2.2.1.ge
    · -- the buffer is empty now, so unless a write failed the file has everything
      obtain rfl := Option.some.inj h'
      by_cases hfailed : (s.writePending fault).1.failed = true
      · exact Or.inr hfailed
      · refine Or.inl ?_
        rw [(hi.log.writePending fault).written_eq (by simpa using hfailed) (hspec fault).2.2.2.2.1,
          (hspec fault).2.2.2.1]
        exact ht.awaited t seq (by rw [hpc]; exact h)
  | beginSync hpc | endSync hpc =>
    refine ht.goto rfl le_rfl id ?_ (fun _ _ => Iff.rfl) (fun _ => Or.inl rfl) (fun seq h => ?_)
      fun seq h target h' => ?_
    · exact (ht.lock t).trans (by rw [hpc]; rfl)
    · exact ht.awaited t seq (by rw [hpc]; exact h)
    · exact ht.target t seq (by rw [hpc]; exact h) target (by rw [hpc]; exact h')
  | endSyncFail hpc =>
    refine hgoto (by rw [hpc]; rfl) (Or.inl rfl) (fun seq h => ?_) fun _ _ _ h => (by cases h)
    exact ht.awaited t seq (by rw [hpc]; exact h)
  | publish hpc =>
    refine ht.goto rfl le_rfl id ?_ (fun _ _ => Iff.rfl) (fun h => (by cases h)) (fun seq h => ?_)
      fun _ _ _ h => (by cases h)
    · exact (ht.lock t).trans (by rw [hpc]; rfl)
    · exact ht.awaited t seq (by rw [hpc]; exact h)
  | publishFail hpc =>
    exact ht.leave rfl id (Or.inl ⟨rfl, by rw [hpc]; rfl⟩) fun h => (by cases h)

/-! ### Every step is progress -/

/-- What a thread need not wait for it need not wait for later. -/
theorem Settled.step {seq : ℕ} (hseq : s.Settled seq) (h : s.step (t, event) = some s') :
    s'.Settled seq := by
  have hwrite := s.toLog.failed_writePending
  have hrelease : ∀ {s₁ : Shared} {e : Entry}, s₁.durable = s.durable →
      (s.failed = true → s₁.failed = true) → (s₁.release t e).Settled seq := by
    intro s₁ e hdurable hfailed
    obtain ⟨-, -, -, -, -, hdurable'⟩ := release_eq _ t _
    refine hseq.imp (fun h => ?_) fun h => ?_
    · rw [hdurable', hdurable]
      exact h
    · rw [toLog_release]
      exact hfailed h
  cases moves_of_step h with
  | buffer | endFlush => exact hrelease rfl id
  | @write e fault => exact hrelease rfl (hwrite fault)
  | @writeFail e fault | @writeAlways e fault | @drainFail _ _ fault | @drain _ _ fault =>
    exact hseq.imp_right (hwrite fault)
  | publish => exact hseq.imp_left fun h => h.trans (le_max_left _ _)
  | _ => exact hseq

theorem rank_le_of_settled (hsettled : ∀ seq, s.Settled seq → s'.Settled seq) (pc : Pc) :
    s'.rank pc ≤ s.rank pc := by
  cases pc with
  | waiting seq record =>
    by_cases h : s.Settled seq
    · rw [rank_waiting h, rank_waiting (hsettled seq h)]
    · rw [rank_waiting_of_not h, rank]
      split_ifs <;> omega
  | _ => exact le_rfl

/-- A thread that takes over the next flush has something to wait for. -/
theorem not_settled_of_own {seq : ℕ} {record : Option Entry}
    (hpc : s.thread t = .waiting seq record)
    (h : s.step (t, .check)
      = some (({ s with inProgress := true } : Shared).goto t (.owning seq record))) :
    ¬ s.Settled seq := by
  have hthread : ∀ {s₁ : Shared}, s.step (t, .check) = some s₁ →
      s₁.thread t = .owning seq record := fun h' => by
    obtain rfl := Option.some.inj (h.symm.trans h')
    exact thread_goto_self _ _ _
  have hstep : s.step (t, .check) = s.checkDurable t seq record := by
    simp only [step, hpc]
  rw [hstep] at hthread
  unfold checkDurable at hthread
  rintro (hdurable | hfailed)
  · rw [if_pos hdurable] at hthread
    cases record with
    | none => cases (thread_goto_self s t .idle).symm.trans (hthread rfl)
    | some e => cases (thread_acknowledge_self s t e).symm.trans (hthread rfl)
  · by_cases hdurable : seq ≤ s.durable
    · rw [if_pos hdurable] at hthread
      cases record with
      | none => cases (thread_goto_self s t .idle).symm.trans (hthread rfl)
      | some e => cases (thread_acknowledge_self s t e).symm.trans (hthread rfl)
    · rw [if_neg hdurable, if_pos hfailed] at hthread
      cases (thread_fail_self s t).symm.trans (hthread rfl)

theorem rank_release_le (s : Shared) (t : Thread) (e : Entry) (s' : Shared) :
    s'.rank ((s.release t e).thread t) ≤ 9 := by
  rcases s.thread_release_self t e with h | h
  · rw [h, rank]
    split_ifs <;> omega
  · rw [h]
    exact (by decide : 1 ≤ 9)

/-- **Every step brings the call of its thread closer to its end.** -/
theorem rank_lt (ht : s.Turns) (hevent : event.continues = true)
    (h : s.step (t, event) = some s') : s'.rank (s'.thread t) < s.rank (s.thread t) := by
  have hrelease : ∀ {s₁ : Shared} {e : Entry} {pc : Pc}, s.thread t = pc → 9 < s.rank pc →
      (s₁.release t e).rank ((s₁.release t e).thread t) < s.rank (s.thread t) := fun hpc hlt => by
    rw [hpc]
    exact (rank_release_le _ _ _ _).trans_lt hlt
  have hfail : ∀ {s₁ s₂ : Shared} {pc : Pc}, s.thread t = pc → 0 < s.rank pc →
      s₂.rank ((s₁.fail t).thread t) < s.rank (s.thread t) := fun hpc hlt => by
    rw [hpc, thread_fail_self]
    exact hlt
  have hgoto : ∀ {s₁ s₂ : Shared} {pc pc' : Pc}, s.thread t = pc → s₂.rank pc' < s.rank pc →
      s₂.rank ((s₁.goto t pc').thread t) < s.rank (s.thread t) := fun hpc hlt => by
    rwa [hpc, thread_goto_self]
  have hwaiting : ∀ seq record, 0 < s.rank (.waiting seq record) := fun seq record => by
    rw [rank]
    split_ifs <;> omega
  cases moves_of_step h with
  | report | call | sync | resume => cases hevent
  | refuse hpc | tooLarge hpc | writeFail hpc | endFlushFail hpc | publishFail hpc =>
    exact hfail hpc (by simp [rank])
  | giveUp hpc => exact hfail hpc (hwaiting _ _)
  | accept hpc | encode hpc | writeAlways hpc | beginFlush hpc | drainFail hpc | drain hpc
  | beginSync hpc | endSync hpc | endSyncFail hpc => exact hgoto hpc (by simp [rank])
  | buffer hpc | write hpc | endFlush hpc => exact hrelease hpc (by simp [rank])
  | covered hpc => exact hgoto hpc (hwaiting _ _)
  | acknowledge hpc hdurable =>
    rw [hpc, thread_acknowledge_self, rank_waiting (Or.inl hdurable)]
    exact Nat.lt_succ_self 1
  | own hpc =>
    refine hgoto hpc ?_
    rw [rank_waiting_of_not (not_settled_of_own hpc h)]
    exact Nat.lt_succ_self 8
  | @publish seq record target hpc =>
    refine hgoto hpc ?_
    -- the flush covers the record it was made for, unless a write failed
    rw [rank_waiting]
    · exact (by decide : 2 < 5)
    · exact (ht.target t seq (by rw [hpc]; rfl) target (by rw [hpc]; rfl)).imp_left
        fun hle => hle.trans (le_max_right _ _)

/-! ### Somebody can go on -/

/-- A thread that holds the append lock can go on. -/
theorem exists_step_of_locks (hlocks : (s.thread t).locks = true) :
    ∃ event s', event.continues = true ∧ event.faultless = true ∧ s.step (t, event) = some s' := by
  cases hpc : s.thread t with
  | encoded e =>
    refine ⟨.write none, ?_⟩
    simp only [step, hpc]
    split
    · exact ⟨_, rfl, rfl, rfl⟩
    · split_ifs <;> exact ⟨_, rfl, rfl, rfl⟩
  | unflushed e => exact ⟨.beginFlush, _, rfl, rfl, by simp only [step, hpc]; rfl⟩
  | flushing e begun =>
    exact ⟨.endFlush true, _, rfl, rfl, by simp only [step, hpc, if_true]; rfl⟩
  | _ => simp [hpc, Pc.locks] at hlocks

/-- A thread that needs the append lock can go on, or its holder can. -/
theorem exists_step_of_lock (ht : s.Turns) (hstep : s.lock = none → ∃ event s',
      event.continues = true ∧ event.faultless = true ∧ s.step (t, event) = some s') :
    ∃ u event s', event.continues = true ∧ event.faultless = true
      ∧ s.step (u, event) = some s' := by
  cases hlock : s.lock with
  | none => exact ⟨t, hstep hlock⟩
  | some u => exact ⟨u, exists_step_of_locks ((ht.lock u).mp hlock)⟩

/-- The owner of the flush in flight can go on, or whoever keeps the append lock from it. -/
theorem exists_step_of_owns (ht : s.Turns) (howns : (s.thread t).owns = true) :
    ∃ u event s', event.continues = true ∧ event.faultless = true
      ∧ s.step (u, event) = some s' := by
  cases hpc : s.thread t with
  | owning seq record =>
    refine exists_step_of_lock (t := t) ht fun hlock => ⟨.write none, ?_⟩
    simp only [step, hpc, if_pos hlock]
    split <;> exact ⟨_, rfl, rfl, rfl⟩
  | drained seq record target => exact ⟨t, .beginFlush, _, rfl, rfl, by simp only [step, hpc]; rfl⟩
  | syncing seq record target begun =>
    exact ⟨t, .endFlush true, _, rfl, rfl, by simp only [step, hpc, if_true]; rfl⟩
  | flushed seq record outcome =>
    refine ⟨t, .publish, ?_⟩
    simp only [step, hpc]
    cases outcome <;> exact ⟨_, rfl, rfl, rfl⟩
  | _ => simp [hpc, Pc.owns] at howns

/-- **Somebody can go on** as long as a call is running, and without a failure.  Only an append
needs another number. -/
theorem exists_step (ht : s.Turns)
    (hseq : (s.thread t).appends = true → s.lastSeq + 1 < u64Limit)
    (hbusy : (s.thread t).isDone = false) : ∃ u event s', event.continues = true
      ∧ event.faultless = true ∧ s.step (u, event) = some s' := by
  cases hpc : s.thread t with
  | idle | returned => simp [hpc, Pc.isDone] at hbusy
  | called key value =>
    refine ⟨t, .accept, ?_⟩
    simp only [step, hpc]
    split_ifs <;> exact ⟨_, rfl, rfl, rfl⟩
  | accepted key value =>
    refine exists_step_of_lock (t := t) ht fun hlock => ⟨.encode, ?_⟩
    have hnumber := hseq (by rw [hpc]; rfl)
    simp only [step, hpc, encodeRecord, if_pos (And.intro hlock hnumber)]
    split
    · exact ⟨_, rfl, rfl, rfl⟩
    · split_ifs <;> exact ⟨_, rfl, rfl, rfl⟩
  | encoded | unflushed | flushing => exact ⟨t, exists_step_of_locks (by rw [hpc]; rfl)⟩
  | owning | drained | syncing | flushed => exact exists_step_of_owns ht (by rw [hpc]; rfl)
  | waiting seq record =>
    by_cases hprogress : s.inProgress = true
    · obtain ⟨u, hu⟩ := ht.owner hprogress
      exact exists_step_of_owns ht hu
    · refine ⟨t, .check, ?_⟩
      simp only [step, hpc, checkDurable, if_neg hprogress]
      split_ifs
      · cases record <;> exact ⟨_, rfl, rfl, rfl⟩
      · exact ⟨_, rfl, rfl, rfl⟩
      · exact ⟨_, rfl, rfl, rfl⟩

/-- How many steps the threads of `T` may still take. -/
def work (s : Shared) (T : Finset Thread) : ℕ := ∑ t ∈ T, s.rank (s.thread t)

/-- A step does not take any call back. -/
theorem rank_le_of_step (ht : s.Turns) (hevent : event.continues = true)
    (h : s.step (t, event) = some s') (u : Thread) :
    s'.rank (s'.thread u) ≤ s.rank (s.thread u) := by
  by_cases hu : u = t
  · subst hu
    exact (rank_lt ht hevent h).le
  · rw [step_thread h hu]
    exact rank_le_of_settled (fun _ hs => hs.step h) _

theorem work_lt (ht : s.Turns) {T : Finset Thread} (hT : t ∈ T) (hevent : event.continues = true)
    (h : s.step (t, event) = some s') : s'.work T < s.work T :=
  Finset.sum_lt_sum (fun u _ => rank_le_of_step ht hevent h u) ⟨t, hT, rank_lt ht hevent h⟩

theorem rank_le (s : Shared) (pc : Pc) : s.rank pc ≤ 14 := by
  cases pc with
  | waiting seq record =>
    rw [rank]
    split_ifs <;> omega
  | _ => simp [rank]

end

theorem turns_of_reachable {s : Shared} (hs : Reachable step (fun _ _ => True) Opened s) :
    s.Turns := by
  refine hs.invariant ?_ fun s label s' hreach ht _ h => ht.step (inv_of_reachable hreach) h
  rintro _ ⟨_, _, _, _, _, hr, rfl⟩
  exact Turns.new _ _

/-- A log in which only the threads of `T` may be inside a call. -/
structure Attended (T : Finset Thread) (s : Shared) : Prop where
  inv : s.Inv
  turns : s.Turns
  outside : ∀ t ∉ T, s.thread t = .idle

section

variable {s s' : Shared} {t : Thread} {event : Event} {T : Finset Thread}

theorem Attended.mem (ha : s.Attended T) {label : Thread × Event}
    (hevent : label.2.continues = true) (h : s.step label = some s') : label.1 ∈ T := by
  obtain ⟨t, event⟩ := label
  by_contra hnot
  have hidle : s.thread t = .idle := ha.outside _ hnot
  have hlt := rank_lt ha.turns hevent h
  rw [hidle] at hlt
  cases hlt

theorem Attended.step (ha : s.Attended T) {label : Thread × Event}
    (hevent : label.2.continues = true) (h : s.step label = some s') : s'.Attended T := by
  obtain ⟨t, event⟩ := label
  refine ⟨ha.inv.step h, ha.turns.step ha.inv h, fun u hu => ?_⟩
  have hne : u ≠ t := fun heq => hu (heq ▸ ha.mem hevent h)
  rw [step_thread h hne]
  exact ha.outside u hu

end

/-- **Every call returns.**  In every state of a log, whatever failed before, let the calls of
`set`, `delete` and `sync` that are running go on, in any order and with any failures, while no new
ones begin.  Each thread takes at most 14 steps, all together at most 14 times as many as there are
threads inside, and when nobody can go on every call has returned. -/
theorem calls_return {s s' : Shared} (hs : Reachable step (fun _ _ => True) Opened s)
    {T : Finset Thread} (hT : ∀ t ∉ T, s.thread t = .idle) {labels : List (Thread × Event)}
    (hrun : run step (fun _ label => label.2.continues) s labels = some s') :
    (∀ t, labels.countP (fun label => label.1 = t) ≤ 14) ∧ labels.length ≤ 14 * T.card
      ∧ ((∀ t event, event.continues = true → s'.step (t, event) = none) →
        s'.lastSeq + 1 < u64Limit → ∀ t, (s'.thread t).isDone = true) := by
  have hstart : s.Attended T := ⟨inv_of_reachable hs, turns_of_reachable hs, hT⟩
  have hend : s'.Attended T :=
    run_invariant (fun _ _ _ ha hevent h => ha.step hevent h) hstart hrun
  refine ⟨fun t => ?_, ?_, fun hstuck hseq t => ?_⟩
  · have hcount := run_countP_le (fun s : Shared => s.rank (s.thread t))
      (fun label => label.1 = t) (fun s label s' ha hevent h =>
        ⟨ha.step hevent h, rank_le_of_step ha.turns hevent h t, fun hlabel => by
          obtain rfl := of_decide_eq_true hlabel
          exact rank_lt ha.turns hevent h⟩) hstart hrun
    exact (Nat.le_add_right _ _).trans (hcount.trans (s.rank_le _))
  · have hcount := run_countP_le (fun s : Shared => s.work T) (fun _ => true)
      (fun s label s' ha hevent h => by
        have hlt := work_lt ha.turns (ha.mem hevent h) hevent h
        exact ⟨ha.step hevent h, hlt.le, fun _ => hlt⟩) hstart hrun
    rw [List.countP_true] at hcount
    have hwork : s.work T ≤ 14 * T.card := by
      rw [mul_comm]
      exact Finset.sum_le_card_nsmul T _ 14 fun t _ => s.rank_le _
    omega
  · by_contra hbusy
    obtain ⟨u, event, s'', hevent, -, h⟩ :=
      exists_step (t := t) hend.turns (fun _ => hseq) (by simpa using hbusy)
    rw [hstuck u event hevent] at h
    cases h

/-- One thread owns a flush, another has its record in the buffer, and a third calls `sync`. -/
def threeInside : List (Thread × Event) :=
  [(.client 1, .append [1] (some [7])), (.client 1, .accept), (.client 1, .encode),
    (.client 1, .check), (.client 2, .append [2] none), (.client 2, .accept), (.client 2, .encode),
    (.client 3, .sync)]

/-- The thread that owns the flush fails to write the buffer, and the others give up. -/
def ownerFails : List (Thread × Event) :=
  [(.client 1, .write (some 3)), (.client 1, .publish), (.client 2, .check), (.client 3, .check)]

/-- Threads that take no step of a run stay where they are. -/
theorem thread_of_run {permitted : Shared → Thread × Event → Bool} {t : Thread} :
    ∀ {labels : List (Thread × Event)} {s s' : Shared}, t ∉ labels.map Prod.fst →
      run step permitted s labels = some s' → s'.thread t = s.thread t
  | [], s, s', _, h => by
    obtain rfl := Option.some.inj h
    rfl
  | label :: rest, s, s', ht, h => by
    rw [List.map_cons, List.mem_cons, not_or] at ht
    obtain ⟨u, hu, hrest⟩ := run_cons h
    exact (thread_of_run ht.2 hrest).trans (step_thread hu ht.1)

theorem calls_return_ownerFails : ∃ s s' : Shared, (s.thread (.client 1)).owns = true
    ∧ s'.failed = true ∧ (∀ t, ownerFails.countP (fun label => label.1 = t) ≤ 14)
    ∧ ownerFails.length ≤ 14 * 3 ∧ ∀ t, (s'.thread t).isDone = true := by
  obtain ⟨s, hs, htest⟩ := Option.bind_eq_some_iff.mp
    (by decide +kernel : ((run step (fun _ _ => true) (Shared.new .group ⟨fileHeader, 0, []⟩)
      threeInside).bind fun s => (run step (fun _ label => label.2.continues) s ownerFails).map
        fun s' => (s.thread (.client 1)).owns && s'.failed && decide (s'.lastSeq = 2)
          && [1, 2, 3].all fun i => decide (s'.thread (.client i) = .idle)) = some true)
  obtain ⟨s', hs', htest⟩ := Option.map_eq_some_iff.mp htest
  simp only [Bool.and_eq_true, decide_eq_true_iff, List.all_cons, List.all_nil] at htest
  obtain ⟨⟨⟨howns, hfailed⟩, hlast⟩, h1, h2, h3, -⟩ := htest
  let T : Finset Thread := {.client 1, .client 2, .client 3}
  have hout : ∀ t ∉ T, t ∉ threeInside.map Prod.fst ∧ t ∉ ownerFails.map Prod.fst := by
    simp [T, threeInside, ownerFails]
  have hreach : Reachable step (fun _ _ => True) Opened s :=
    Reachable.of_run (fun _ _ _ => trivial)
      (.start ⟨1, none, 0, .group, ⟨fileHeader, 0, []⟩, rfl, rfl⟩) hs
  have hT : ∀ t ∉ T, s.thread t = .idle := fun t ht => thread_of_run (hout t ht).1 hs
  have hidle : ∀ t, s'.thread t = .idle := fun t => by
    by_cases ht : t ∈ T
    · simp only [T, Finset.mem_insert, Finset.mem_singleton] at ht
      rcases ht with rfl | rfl | rfl
      · exact h1
      · exact h2
      · exact h3
    · exact (thread_of_run (hout t ht).2 hs').trans (hT t ht)
  have hturns : s'.Turns := turns_of_reachable (hreach.of_run (fun _ _ _ => trivial) hs')
  obtain ⟨heach, hlength, hdone⟩ := calls_return hreach hT hs'
  refine ⟨s, s', howns, hfailed, heach, hlength,
    hdone (fun t event hevent => ?_) (by rw [hlast]; decide)⟩
  rw [Option.eq_none_iff_forall_ne_some]
  intro s'' h
  have := rank_lt hturns hevent h
  rw [hidle t] at this
  cases this

end Shared

end Lsmkv.Wal
