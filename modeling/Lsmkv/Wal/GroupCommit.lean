import Lsmkv.Wal.Moves

/-!
# Group commit

What holds of a shared log in every state its threads can reach.  `InvBut s active` is the
invariant of the log, with the facts each thread's position carries for every thread but `active`:
a step takes the moving thread out, changes the log, and puts the thread back at its new position.
`Advances t s s'` is what a step of `t` guarantees to the others, and the reason their facts
survive it.

While no write has failed, the file holds the records up to `written` and the buffer the rest;
`Covered s q` says that a successful `sync_data` began when every record up to `q` was in the
file.
-/

namespace Lsmkv.Wal.Shared

open Record Replay

/-! ### The invariant -/

/-- Every record up to `q` was in the file when some successful `sync_data` began. -/
def Covered (s : Shared) (q : ℕ) : Prop :=
  q ≤ s.opened.lastSeq ∨ ∃ m, m ≤ s.appended.length ∧ q ≤ s.opened.lastSeq + m
    ∧ s.opened.file ++ frames (s.appended.take m) ∈ s.synced

/-- What an append that returned `Ok` can rely on. -/
def Done (s : Shared) (e : Entry) : Prop :=
  e ∈ s.appended ∧ (s.policy = .always → e.seq ≤ s.written)
    ∧ (s.policy = .group → e.seq ≤ s.durable)

/-- The record an append waits for in `sync_through`. -/
def Waits (s : Shared) (seq : ℕ) (record : Option Entry) : Prop :=
  ∀ e ∈ record, e ∈ s.appended ∧ e.seq = seq ∧ s.policy = .group

/-- What the position of a thread says about the log. -/
def Fact (s : Shared) (t : Thread) : Pc → Prop
  | .idle | .called _ _ | .accepted _ _ => True
  | .encoded e => s.lock = some t ∧ s.buf ≠ [] ∧ e ∈ s.appended ∧ e.seq = s.lastSeq
  | .unflushed e | .flushing e _ =>
    s.lock = some t ∧ s.buf = [] ∧ s.policy = .always ∧ e ∈ s.appended ∧ e.seq ≤ s.written
  | .waiting seq record | .owning seq record => s.Waits seq record
  | .drained seq record target => s.Waits seq record ∧ target ≤ s.written
  | .syncing seq record target begun =>
    s.Waits seq record ∧ target ≤ s.written ∧ (s.failed = false → ∃ m, m ≤ s.appended.length
      ∧ target ≤ s.opened.lastSeq + m ∧ begun = s.opened.file ++ frames (s.appended.take m))
  | .flushed seq record outcome =>
    s.Waits seq record
      ∧ ∀ target ∈ outcome, target ≤ s.written ∧ (s.failed = false → s.Covered target)
  | .returned e => e ∈ s.returned

/-- What a log whose writes succeeded guarantees about its buffer and its flushes. -/
structure Live (s : Shared) : Prop where
  small : s.lock = none → s.buf.length < maxPendingBytes
  covered : s.Covered s.durable

/-- The invariant of the log, without the facts of the thread that is moving. -/
structure InvBut (s : Shared) (active : Option Thread) : Prop where
  log : s.toLog.Inv
  durable_le : s.durable ≤ s.written
  done : ∀ e ∈ s.returned, s.Done e
  fact : ∀ t, active ≠ some t → s.Fact t (s.thread t)
  live : s.failed = false → s.Live

/-- The invariant of the log. -/
abbrev Inv (s : Shared) : Prop := s.InvBut none

/-! ### What a step guarantees to the other threads -/

/-- What a step of `t` guarantees to the others. -/
structure Advances (t : Thread) (s s' : Shared) : Prop where
  policy : s'.policy = s.policy
  opened : s'.opened = s.opened
  appended : s.appended <+: s'.appended
  returned : s.returned ⊆ s'.returned
  synced : s.synced ⊆ s'.synced
  written : s.written ≤ s'.written
  durable : s.durable ≤ s'.durable
  failed : s'.failed = false → s.failed = false
  held : ∀ u, u ≠ t → s.lock = some u →
    s'.lock = some u ∧ s'.lastSeq = s.lastSeq ∧ s'.buf = s.buf
  thread : ∀ u, u ≠ t → s'.thread u = s.thread u

section

variable {s s' : Shared} {t : Thread}

theorem Advances.take (h : Advances t s s') {m : ℕ} (hm : m ≤ s.appended.length) :
    s'.appended.take m = s.appended.take m := by
  obtain ⟨rest, hrest⟩ := h.appended
  rw [← hrest, List.take_append_of_le_length hm]

theorem Covered.mono (h : Advances t s s') {q : ℕ} (hq : s.Covered q) : s'.Covered q := by
  rcases hq with hq | ⟨m, hm, hle, hmem⟩
  · exact Or.inl (h.opened ▸ hq)
  · refine Or.inr ⟨m, hm.trans h.appended.length_le, h.opened ▸ hle, ?_⟩
    rw [h.opened, h.take hm]
    exact h.synced hmem

theorem Waits.mono (h : Advances t s s') {seq : ℕ} {record : Option Entry}
    (hw : s.Waits seq record) : s'.Waits seq record := by
  intro e he
  obtain ⟨hmem, hseq, hpolicy⟩ := hw e he
  exact ⟨h.appended.subset hmem, hseq, h.policy ▸ hpolicy⟩

theorem Waits.writePending {seq : ℕ} {record : Option Entry} (hw : s.Waits seq record)
    (fault : Option ℕ) :
    ({ s with toLog := (s.writePending fault).1 } : Shared).Waits seq record := by
  obtain ⟨hpolicy, -, happended, -⟩ := s.toLog.writePending_spec fault
  intro e he
  rw [happended, hpolicy]
  exact hw e he

theorem Done.mono (h : Advances t s s') {e : Entry} (hd : s.Done e) : s'.Done e := by
  obtain ⟨hmem, halways, hgroup⟩ := hd
  refine ⟨h.appended.subset hmem, ?_, ?_⟩
  · intro hp
    exact (halways (h.policy ▸ hp)).trans h.written
  · intro hp
    exact (hgroup (h.policy ▸ hp)).trans h.durable

/-- The facts of the threads that do not move survive a step. -/
theorem Fact.mono (h : Advances t s s') {u : Thread} (hu : u ≠ t) {pc : Pc} (hf : s.Fact u pc) :
    s'.Fact u pc := by
  cases pc with
  | idle => trivial
  | called => trivial
  | accepted => trivial
  | encoded e =>
    obtain ⟨hlock, hbuf, hmem, hseq⟩ := hf
    obtain ⟨hlock', hlast, hbuf'⟩ := h.held u hu hlock
    exact ⟨hlock', hbuf' ▸ hbuf, h.appended.subset hmem, hseq.trans hlast.symm⟩
  | unflushed e =>
    obtain ⟨hlock, hbuf, hpolicy, hmem, hle⟩ := hf
    obtain ⟨hlock', -, hbuf'⟩ := h.held u hu hlock
    exact ⟨hlock', hbuf'.trans hbuf, h.policy ▸ hpolicy, h.appended.subset hmem,
      hle.trans h.written⟩
  | flushing e begun =>
    obtain ⟨hlock, hbuf, hpolicy, hmem, hle⟩ := hf
    obtain ⟨hlock', -, hbuf'⟩ := h.held u hu hlock
    exact ⟨hlock', hbuf'.trans hbuf, h.policy ▸ hpolicy, h.appended.subset hmem,
      hle.trans h.written⟩
  | waiting => exact Waits.mono h hf
  | owning => exact Waits.mono h hf
  | drained => exact ⟨Waits.mono h hf.1, hf.2.trans h.written⟩
  | syncing seq record target begun =>
    refine ⟨Waits.mono h hf.1, hf.2.1.trans h.written, fun hlive => ?_⟩
    obtain ⟨m, hm, hle, hbegun⟩ := hf.2.2 (h.failed hlive)
    exact ⟨m, hm.trans h.appended.length_le, h.opened ▸ hle, by rw [h.opened, h.take hm, hbegun]⟩
  | flushed seq record outcome =>
    refine ⟨Waits.mono h hf.1, fun target htarget => ?_⟩
    obtain ⟨hle, hcovered⟩ := hf.2 target htarget
    exact ⟨hle.trans h.written, fun hlive => (hcovered (h.failed hlive)).mono h⟩
  | returned e => exact h.returned hf

/-- The other threads' facts after a step that changes the log. -/
theorem InvBut.fact_of_advances (hi : s.InvBut (some t)) (h : Advances t s s') :
    ∀ u, some t ≠ some u → s'.Fact u (s'.thread u) := by
  intro u hu
  have hne : u ≠ t := fun heq => hu (congrArg some heq.symm)
  rw [h.thread u hne]
  exact (hi.fact u hu).mono h hne

/-! ### Moving a thread -/

/-- The facts of one thread can be set aside. -/
theorem InvBut.takeOut (hi : s.Inv) (t : Thread) : s.InvBut (some t) :=
  { hi with fact := fun u _ => hi.fact u (by simp) }

theorem Inv.fact_of_eq (hi : s.Inv) {pc : Pc} (hpc : s.thread t = pc) : s.Fact t pc :=
  hpc ▸ hi.fact t (by simp)

/-- A step that touches neither the records nor the append lock. -/
theorem advances_goto (s : Shared) (t : Thread) (pc : Pc) : Advances t s (s.goto t pc) where
  policy := rfl
  opened := rfl
  appended := List.prefix_rfl
  returned := fun _ h => h
  synced := fun _ h => h
  written := le_rfl
  durable := le_rfl
  failed := id
  held := fun _ _ h => ⟨h, rfl, rfl⟩
  thread := fun _ hu => Function.update_of_ne hu _ _

/-- The moving thread arrives where its facts hold. -/
theorem InvBut.goto (hi : s.InvBut (some t)) {pc : Pc} (hf : s.Fact t pc) : (s.goto t pc).Inv := by
  refine { hi with fact := ?_, live := fun h => { hi.live h with } }
  intro u _
  by_cases hu : u = t
  · subst hu
    rw [show (s.goto u pc).thread u = pc from Function.update_self _ _ _]
    cases pc <;> exact hf
  · exact hi.fact_of_advances (advances_goto s t pc) u (by simpa using Ne.symm hu)

/-- An append that can rely on its record returns `Ok`. -/
theorem InvBut.acknowledge (hi : s.InvBut (some t)) {e : Entry} (hd : s.Done e) :
    (s.acknowledge t e).Inv := by
  have hadv : Advances t s { s with returned := s.returned ++ [e] } :=
    { advances_goto s t (s.thread t) with
      returned := List.subset_append_left _ _
      thread := fun _ _ => rfl }
  have hi' : ({ s with returned := s.returned ++ [e] } : Shared).InvBut (some t) := by
    refine { hi with fact := hi.fact_of_advances hadv, done := ?_
                     live := fun h => { hi.live h with } }
    intro f hf
    rcases List.mem_append.mp hf with hf | hf
    · exact hi.done f hf
    · rw [List.mem_singleton.mp hf]
      exact hd
  have hf : ({ s with returned := s.returned ++ [e] } : Shared).Fact t (.returned e) :=
    List.mem_append_right _ (List.mem_singleton_self e)
  exact hi'.goto hf

/-- The flags no fact mentions. -/
theorem InvBut.setFlags (hi : s.InvBut (some t)) (inProgress backgroundError : Bool) :
    ({ s with inProgress := inProgress, backgroundError := backgroundError } : Shared).InvBut
      (some t) := by
  have hadv : Advances t s
      { s with inProgress := inProgress, backgroundError := backgroundError } :=
    { advances_goto s t (s.thread t) with thread := fun _ _ => rfl }
  exact { hi with fact := hi.fact_of_advances hadv, live := fun h => { hi.live h with } }

/-- A call that returns an error leaves the records as they are. -/
theorem InvBut.fail (hi : s.InvBut (some t)) : (s.fail t).Inv :=
  have hf : ({ s with backgroundError := if t = .syncer then true else s.backgroundError } :
      Shared).Fact t .idle := trivial
  (hi.setFlags s.inProgress _).goto hf

/-! ### Changing the log -/

/-- The moving thread lets go of the append lock, or never held it. -/
theorem InvBut.unlock (hi : s.InvBut (some t)) (hlock : s.lock = none ∨ s.lock = some t)
    (hsmall : s.buf.length < maxPendingBytes) :
    ({ s with lock := none } : Shared).InvBut (some t) := by
  have hadv : Advances t s { s with lock := none } :=
    { advances_goto s t (s.thread t) with
      held := fun u hu h => by
        rcases hlock with hlock | hlock
        · simp [hlock] at h
        · exact absurd (Option.some.inj (hlock.symm.trans h)).symm hu
      thread := fun _ _ => rfl }
  exact { hi with fact := hi.fact_of_advances hadv
                  live := fun h => { hi.live h with small := fun _ => hsmall } }

/-- An append lets go of the append lock and goes on as its policy says. -/
theorem InvBut.release (hi : s.InvBut (some t)) (hlock : s.lock = none ∨ s.lock = some t)
    (hsmall : s.buf.length < maxPendingBytes) {e : Entry} (hmem : e ∈ s.appended)
    (halways : s.policy = .always → e.seq ≤ s.written) : (s.release t e).Inv := by
  have hi' := hi.unlock hlock hsmall
  unfold Shared.release
  dsimp only
  split_ifs with hpolicy
  · refine hi'.goto ?_
    rintro f hf
    obtain rfl := Option.some.inj hf
    exact ⟨hmem, rfl, hpolicy⟩
  · exact hi'.acknowledge ⟨hmem, halways, fun h => absurd h hpolicy⟩

/-- A successful `sync_data` is recorded with the content it began at. -/
theorem InvBut.record (hi : s.InvBut (some t)) (begun : Bytes) :
    ({ s with synced := s.synced ++ [begun] } : Shared).InvBut (some t) := by
  have hadv : Advances t s { s with synced := s.synced ++ [begun] } :=
    { advances_goto s t (s.thread t) with
      synced := List.subset_append_left _ _
      thread := fun _ _ => rfl }
  exact { hi with fact := hi.fact_of_advances hadv
                  live := fun h => { hi.live h with covered := (hi.live h).covered.mono hadv } }

/-- The end of a flush raises `durable` to what the flush covered. -/
theorem InvBut.publish (hi : s.InvBut (some t)) {target : ℕ} (hle : target ≤ s.written)
    (hcovered : s.failed = false → s.Covered target) :
    ({ s with durable := max s.durable target } : Shared).InvBut (some t) := by
  have hadv : Advances t s { s with durable := max s.durable target } :=
    { advances_goto s t (s.thread t) with
      durable := le_max_left _ _
      thread := fun _ _ => rfl }
  refine { hi with
    durable_le := max_le hi.durable_le hle
    done := fun e he => (hi.done e he).mono hadv
    fact := hi.fact_of_advances hadv
    live := fun h => { hi.live h with covered := ?_ } }
  rcases le_total s.durable target with hmax | hmax
  · rw [max_eq_right hmax]
    exact (hcovered h).mono hadv
  · rw [max_eq_left hmax]
    exact (hi.live h).covered.mono hadv

/-- A record is encoded behind the ones the buffer holds. -/
theorem InvBut.encode (hi : s.InvBut (some t)) (hlock : s.lock = none) {e : Entry}
    (he : Fits e) (hseq : e.seq = s.lastSeq + 1) (lock : Option Thread)
    (hsmall : lock = none → (s.buf ++ frame e).length < maxPendingBytes) :
    ({ s with toLog := s.push e (s.buf ++ frame e), lock := lock } : Shared).InvBut (some t) := by
  have hadv : Advances t s { s with toLog := s.push e (s.buf ++ frame e), lock := lock } :=
    { advances_goto s t (s.thread t) with
      appended := List.prefix_append _ _
      held := fun u _ h => by simp [hlock] at h
      thread := fun _ _ => rfl }
  exact {
    log := hi.log.push he hseq
    durable_le := hi.durable_le
    done := fun f hf => (hi.done f hf).mono hadv
    fact := hi.fact_of_advances hadv
    live := fun h => ⟨hsmall, (hi.live h).covered.mono hadv⟩ }

/-- `write_pending` by a thread nobody else can hold the append lock against. -/
theorem InvBut.writePending (hi : s.InvBut (some t)) (hlock : s.lock = none ∨ s.lock = some t)
    (fault : Option ℕ) :
    ({ s with toLog := (s.writePending fault).1 } : Shared).InvBut (some t) := by
  obtain ⟨hpolicy, hopened, happended, -, hbuf, -, hfailed⟩ := s.toLog.writePending_spec fault
  have hwritten := hi.log.written_le_writePending fault
  have hadv : Advances t s { s with toLog := (s.writePending fault).1 } :=
    { advances_goto s t (s.thread t) with
      policy := hpolicy
      opened := hopened
      appended := by rw [happended]
      written := hwritten
      failed := hfailed
      held := fun u hu h => by
        rcases hlock with hlock | hlock
        · simp [hlock] at h
        · exact absurd (Option.some.inj (hlock.symm.trans h)).symm hu
      thread := fun _ _ => rfl }
  exact {
    log := hi.log.writePending fault
    durable_le := hi.durable_le.trans hwritten
    done := fun e he => (hi.done e he).mono hadv
    fact := hi.fact_of_advances hadv
    live := fun h => ⟨fun _ => by rw [hbuf]; decide, (hi.live (hfailed h)).covered.mono hadv⟩ }

/-! ### One step -/

/-- **Every step keeps the invariant**, whatever writes and flushes fail. -/
theorem Inv.step (hi : s.Inv) {label : Thread × Event} (h : s.step label = some s') : s'.Inv := by
  obtain ⟨t, event⟩ := label
  -- a step concerns one thread: all but its fact holds on, and each case gives it its new one
  have hout := hi.takeOut t
  cases moves_of_step h with
  | report hpc =>
    have hback : ({ s with backgroundError := false } : Shared).goto t .idle
        = { s with backgroundError := false } := by
      rw [goto, ← hpc, Function.update_eq_self]
    have hf : ({ s with backgroundError := false } : Shared).Fact t .idle := trivial
    exact hback ▸ (hout.setFlags s.inProgress false).goto hf
  | call | accept | covered | resume => exact hout.goto trivial
  | refuse | tooLarge | giveUp => exact hout.fail
  | @encode e hpc hlock hseq hfits =>
    have hmem : e ∈ s.appended ++ [e] := List.mem_append_right _ (List.mem_singleton_self e)
    exact (hout.encode hlock hfits hseq (some t) (by simp)).goto
      ⟨rfl, by simp [Log.push, frame_ne_nil], hmem, rfl⟩
  | @buffer e hpc hlock hseq hfits hpolicy hsmall =>
    have hmem : e ∈ s.appended ++ [e] := List.mem_append_right _ (List.mem_singleton_self e)
    exact (hout.encode hlock hfits hseq s.lock (fun _ => hsmall)).release (Or.inl hlock) hsmall
      hmem (fun hp => absurd hp hpolicy)
  | @writeFail e fault hpc hwrite =>
    obtain ⟨hlock, -⟩ := hi.fact_of_eq hpc
    have hbuf := (s.toLog.writePending_spec fault).2.2.2.2.1
    exact ((hout.writePending (Or.inr hlock) fault).unlock (Or.inr hlock)
      (by rw [hbuf]; decide)).fail
  | @writeAlways e fault hpc hwrite hpolicy =>
    obtain ⟨hlock, hbuf, hmem, hseq⟩ := hi.fact_of_eq hpc
    obtain ⟨-, -, happended, -, hbuf', hwrote, -⟩ := s.toLog.writePending_spec fault
    exact (hout.writePending (Or.inr hlock) fault).goto
      ⟨hlock, hbuf', hpolicy, happended ▸ hmem, by rw [hwrote hwrite hbuf, hseq]⟩
  | @write e fault hpc hwrite =>
    obtain ⟨hlock, hbuf, hmem, hseq⟩ := hi.fact_of_eq hpc
    obtain ⟨-, -, happended, -, hbuf', hwrote, -⟩ := s.toLog.writePending_spec fault
    exact (hout.writePending (Or.inr hlock) fault).release (Or.inr hlock) (by rw [hbuf']; decide)
      (happended ▸ hmem) (fun _ => by rw [hwrote hwrite hbuf, hseq])
  | beginFlush hpc =>
    have hf : s.Fact t (.unflushed _) := hi.fact_of_eq hpc
    exact hout.goto hf
  | endFlush hpc =>
    obtain ⟨hlock, hbuf, -, hmem, hle⟩ := hi.fact_of_eq hpc
    exact (hout.record _).release (Or.inr hlock) (by rw [hbuf]; decide) hmem (fun _ => hle)
  | endFlushFail hpc =>
    obtain ⟨hlock, hbuf, -⟩ := hi.fact_of_eq hpc
    exact (hout.unlock (Or.inr hlock) (by rw [hbuf]; decide)).fail
  | sync => exact hout.goto (fun e he => by cases he)
  | acknowledge hpc hdurable =>
    obtain ⟨hmem, hseq, hpolicy⟩ := hi.fact_of_eq hpc _ rfl
    refine hout.acknowledge ⟨hmem, fun hp => ?_, fun _ => hseq ▸ hdurable⟩
    rw [hpolicy] at hp
    cases hp
  | own hpc =>
    have hw : s.Waits _ _ := hi.fact_of_eq hpc
    exact (hout.setFlags true s.backgroundError).goto hw
  | @drainFail seq record fault hpc hlock hwrite =>
    exact (hout.writePending (Or.inl hlock) fault).goto
      ⟨(hi.fact_of_eq hpc : s.Waits seq record).writePending fault, fun target ht => by cases ht⟩
  | @drain seq record fault hpc hlock hwrite =>
    exact (hout.writePending (Or.inl hlock) fault).goto
      ⟨(hi.fact_of_eq hpc : s.Waits seq record).writePending fault, le_rfl⟩
  | beginSync hpc =>
    obtain ⟨hw, hle⟩ := hi.fact_of_eq hpc
    -- the flush covers what the file holds when it begins
    exact hout.goto ⟨hw, hle, fun hlive => ⟨s.taken, hi.log.taken_le, hi.log.add_taken ▸ hle,
      hi.log.file hlive⟩⟩
  | @endSync seq record target begun hpc =>
    obtain ⟨hw, hle, hbegun⟩ := hi.fact_of_eq hpc
    refine (hout.record begun).goto ⟨hw, fun target' ht => ?_⟩
    obtain rfl := Option.some.inj ht
    refine ⟨hle, fun hlive => ?_⟩
    obtain ⟨m, hm, hcover, heq⟩ := hbegun hlive
    exact Or.inr ⟨m, hm, hcover, by simp [heq]⟩
  | endSyncFail hpc =>
    exact hout.goto ⟨(hi.fact_of_eq hpc).1, fun target ht => by cases ht⟩
  | @publish seq record target hpc =>
    obtain ⟨hw, htarget⟩ := hi.fact_of_eq hpc
    obtain ⟨hle, hcovered⟩ := htarget target rfl
    exact ((hout.setFlags false s.backgroundError).publish hle hcovered).goto hw
  | publishFail => exact (hout.setFlags false s.backgroundError).fail

/-- A log that was just opened satisfies the invariant. -/
theorem Inv.new {policy : SyncPolicy} {r : Recovered} (hr : Intact r.file) :
    (Shared.new policy r).Inv where
  log := ⟨hr, rfl, by simp [Shared.new], rfl, le_rfl, le_rfl,
    fun _ => by simp [Shared.new, Log.taken], fun _ => by simp [Shared.new]⟩
  durable_le := le_rfl
  done := by simp [Shared.new]
  fact := fun _ _ => trivial
  live := fun _ => ⟨fun _ => (by decide : ([] : Bytes).length < maxPendingBytes), Or.inl le_rfl⟩

end

/-! ### Every reachable state -/

/-- A log that was just opened, on any file and under any policy. -/
def Opened (s : Shared) : Prop :=
  ∃ number file lastSeq policy r, recover number file lastSeq = .ok r ∧ s = Shared.new policy r

theorem inv_of_reachable {ok : Shared → Thread × Event → Prop} {s : Shared}
    (hs : Reachable step ok Opened s) : s.Inv := by
  refine hs.invariant ?_ (fun _ _ _ _ hi _ h => hi.step h)
  rintro _ ⟨_, _, _, _, _, hr, rfl⟩
  exact Inv.new (intact_of_recover hr)

/-- **Group commit.**  While no write has failed and the append lock is free, the file is what it
was when the log was opened followed by the records up to `written`, the buffer holds the rest and
stays under its limit, and what counts as durable was in the file before a `sync_data` that
succeeded.  Flushes may fail, and so may writes in the runs that lead elsewhere. -/
theorem reachable_groupCommit {s : Shared} (hs : Reachable step (fun _ _ => True) Opened s)
    (hfailed : s.failed = false) (hlock : s.lock = none) :
    s.appended.map Version.seq = List.range' (s.opened.lastSeq + 1) s.appended.length
      ∧ s.lastSeq = s.opened.lastSeq + s.appended.length
      ∧ s.file = s.opened.file ++ frames (s.appended.filter fun e => e.seq ≤ s.written)
      ∧ s.buf = frames (s.appended.filter fun e => s.written < e.seq)
      ∧ s.buf.length < 64 * 1024
      ∧ s.durable ≤ s.written ∧ s.written ≤ s.lastSeq
      ∧ (s.policy = .group → ∀ e ∈ s.returned, e.seq ≤ s.durable)
      ∧ ∀ e ∈ s.appended, e.seq ≤ s.durable →
        ∃ m, e ∈ s.appended.take m ∧ s.opened.file ++ frames (s.appended.take m) ∈ s.synced := by
  have hi := inv_of_reachable hs
  have hlive := hi.live hfailed
  have hsplit := Log.filter_seq_le hi.log.seqs s.taken
  rw [hi.log.add_taken] at hsplit
  refine ⟨hi.log.seqs, hi.log.last, ?_, ?_, hlive.small hlock, hi.durable_le, hi.log.written_le,
    fun hgroup e he => (hi.done e he).2.2 hgroup, ?_⟩
  · rw [hsplit.1]
    exact hi.log.file hfailed
  · rw [hsplit.2]
    exact hi.log.buf hfailed
  · intro e he hle
    have hgt := (hi.log.seq_bounds he).1
    rcases hlive.covered with hcovered | ⟨m, -, hm, hmem⟩
    · omega
    · exact ⟨m, hi.log.mem_take he (by omega), hmem⟩

/-- Two appends under `Group` that share one flush. -/
def sharedFlush : List (Thread × Event) :=
  let one := Thread.client 1
  let two := Thread.client 2
  [(one, .append [1] (some [7])), (one, .accept), (one, .encode), (one, .check),
    (two, .append [2] none), (two, .accept), (two, .encode),
    (one, .write none), (one, .beginFlush), (one, .endFlush true), (one, .publish),
    (one, .check), (two, .check)]

theorem reachable_groupCommit_sharedFlush : ∃ s : Shared, s.returned.length = 2
    ∧ s.file = s.opened.file ++ frames (s.appended.filter fun e => e.seq ≤ s.written)
    ∧ s.buf = frames (s.appended.filter fun e => s.written < e.seq) := by
  obtain ⟨s, hs, htest⟩ : ∃ s, Reachable step (fun _ _ => True) Opened s
      ∧ (s.failed = false ∧ s.lock = none ∧ s.returned.length = 2 : Bool) = true :=
    Reachable.exists_of_run (fun _ _ _ => trivial)
      ⟨1, none, 0, .group, ⟨fileHeader, 0, []⟩, rfl, rfl⟩
      (by decide +kernel : (run step (fun _ _ => true) (Shared.new .group ⟨fileHeader, 0, []⟩)
        sharedFlush).map (fun s => decide (s.failed = false ∧ s.lock = none
          ∧ s.returned.length = 2)) = some true)
  obtain ⟨hfailed, hlock, hlen⟩ := of_decide_eq_true htest
  have h := reachable_groupCommit hs hfailed hlock
  exact ⟨s, hlen, h.2.2.1, h.2.2.2.1⟩

end Lsmkv.Wal.Shared
