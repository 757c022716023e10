import Lsmkv.Wal.Moves

/-!
# An append that runs alone

`Alone s₀ t e events s` follows one thread through `append` from any state `s₀` of the log: where
the frame of its record `e` is when the thread stands at each of its points, after the given events.
An append that comes back with an error has left the first `left` bytes of what was in the buffer
and of the frame behind it (`Over`), once what is in the buffer now is written.  The events say how
many these are: those the first write took, all if the `sync_data` behind it failed, and only the
old ones if the append was refused or its record too large.
-/

namespace Lsmkv.Wal

open Record Replay

/-- The fault of a write. -/
def Event.written : Event → Option (Option ℕ)
  | .write fault => some fault
  | _ => none

/-- The fault of the first write of an append, which finds its record in the buffer. -/
def firstWrite (events : List Event) : Option (Option ℕ) := events.findSome? Event.written

/-- How many bytes of a buffer and of the record `e` behind it a failed append leaves. -/
def left (buf : ℕ) (e : Entry) (events : List Event) : ℕ :=
  match firstWrite events with
  | none => buf
  | some none => buf + (frame e).length
  | some (some n) => n

theorem firstWrite_append (events : List Event) (event : Event) :
    firstWrite (events ++ [event]) = (firstWrite events).or event.written := by
  rw [firstWrite, List.findSome?_append, List.findSome?_singleton]
  rfl

namespace Shared

/-- Nothing of `e` is there yet. -/
def Untouched (s₀ : Shared) (events : List Event) (s : Shared) : Prop :=
  s.toLog = s₀.toLog ∧ firstWrite events = none

/-- The frame of `e` waits in the buffer. -/
def Buffered (s₀ : Shared) (e : Entry) (events : List Event) (s : Shared) : Prop :=
  s.file = s₀.file ∧ s.buf = s₀.buf ++ frame e ∧ Fits e ∧ s₀.failed = false
    ∧ firstWrite events = none

/-- The frame of `e` is in the file. -/
def Written (s₀ : Shared) (e : Entry) (events : List Event) (s : Shared) : Prop :=
  s.file = s₀.file ++ (s₀.buf ++ frame e) ∧ s.buf = [] ∧ Fits e ∧ s₀.failed = false
    ∧ firstWrite events = some none

/-- The append of `e` has failed with so much of the frame in the file. -/
def Over (s₀ : Shared) (e : Entry) (events : List Event) (s : Shared) : Prop :=
  Untouched s₀ events s ∨ s.buf = [] ∧ Fits e ∧ s₀.failed = false
    ∧ s.file = s₀.file ++ (s₀.buf ++ frame e).take (left s₀.buf.length e events)
    ∧ firstWrite events ≠ none

/-- Where the record is when the thread that appends it has come to a point. -/
def Stage (s₀ : Shared) (e : Entry) (events : List Event) (s : Shared) : Pc → Prop
  | .idle => Over s₀ e events s
  | .called key value => key = e.key ∧ value = e.value ∧ Untouched s₀ events s
  | .accepted key value =>
    key = e.key ∧ value = e.value ∧ s.failed = false ∧ Untouched s₀ events s
  | .encoded e' => e' = e ∧ s.failed = false ∧ Buffered s₀ e events s
  | .unflushed e' | .flushing e' _ => e' = e ∧ s.failed = false ∧ Written s₀ e events s
  | .waiting _ record | .owning _ record =>
    record = some e ∧ s.failed = false ∧ (Buffered s₀ e events s ∨ Written s₀ e events s)
  | .drained _ record _ | .syncing _ record _ _ | .flushed _ record (some _) =>
    record = some e ∧ s.failed = false ∧ Written s₀ e events s
  | .flushed _ _ none => Over s₀ e events s
  | .returned e' => e' = e ∧ (Buffered s₀ e events s ∨ Written s₀ e events s)

/-- One thread appends `e` to a log it found as `s₀`. -/
def Alone (s₀ : Shared) (t : Thread) (e : Entry) (events : List Event) (s : Shared) : Prop :=
  Stage s₀ e events s (s.thread t)

section

variable {s₀ s s' : Shared} {t : Thread} {e : Entry} {events : List Event} {event : Event}

theorem Untouched.snoc (h : Untouched s₀ events s) (hevent : event.written = none)
    (hlog : s'.toLog = s.toLog) : Untouched s₀ (events ++ [event]) s' :=
  ⟨hlog.trans h.1, by rw [firstWrite_append, h.2, hevent]; rfl⟩

/-- Encoding puts the frame into the buffer. -/
theorem Untouched.buffered (h : Untouched s₀ events s) (hfailed : s.failed = false)
    (hfits : Fits e) (hevent : event.written = none)
    (hlog : s'.toLog = s.push e (s.buf ++ frame e)) : Buffered s₀ e (events ++ [event]) s' := by
  obtain ⟨heq, hnone⟩ := h
  rw [Buffered, hlog, firstWrite_append, hnone, hevent]
  rw [heq] at hfailed ⊢
  exact ⟨rfl, rfl, hfits, hfailed, rfl⟩

theorem Buffered.congr (h : Buffered s₀ e events s) (hlog : s'.toLog = s.toLog) :
    Buffered s₀ e events s' := by
  rw [Buffered, hlog]
  exact h

theorem Buffered.snoc (h : Buffered s₀ e events s) (hevent : event.written = none) :
    Buffered s₀ e (events ++ [event]) s := by
  obtain ⟨hfile, hbuf, hfits, hfailed, hnone⟩ := h
  exact ⟨hfile, hbuf, hfits, hfailed, by rw [firstWrite_append, hnone, hevent]; rfl⟩

theorem Buffered.ne_nil (h : Buffered s₀ e events s) : s.buf ≠ [] := by
  rw [h.2.1]
  exact List.append_ne_nil_of_right_ne_nil _ (frame_ne_nil e)

theorem Written.congr (h : Written s₀ e events s) (hlog : s'.toLog = s.toLog) :
    Written s₀ e events s' := by
  rw [Written, hlog]
  exact h

theorem Written.snoc (h : Written s₀ e events s) (event : Event) :
    Written s₀ e (events ++ [event]) s := by
  obtain ⟨hfile, hbuf, hfits, hfailed, hfirst⟩ := h
  exact ⟨hfile, hbuf, hfits, hfailed, by rw [firstWrite_append, hfirst]; rfl⟩

/-- An append that fails with its frame in the file leaves all of it. -/
theorem Written.over (h : Written s₀ e events s) : Over s₀ e events s := by
  obtain ⟨hfile, hbuf, hfits, hfailed, hfirst⟩ := h
  refine Or.inr ⟨hbuf, hfits, hfailed, ?_, by simp [hfirst]⟩
  rw [left, hfirst, List.take_of_length_le (by rw [List.length_append])]
  exact hfile

theorem Over.congr (h : Over s₀ e events s) (hlog : s'.toLog = s.toLog) : Over s₀ e events s' := by
  rw [Over, Untouched, hlog]
  exact h

theorem Over.snoc (h : Over s₀ e events s) (hevent : event.written = none) :
    Over s₀ e (events ++ [event]) s := by
  rcases h with huntouched | ⟨hbuf, hfits, hfailed, hfile, hsome⟩
  · exact Or.inl (huntouched.snoc hevent rfl)
  · have hfirst : firstWrite (events ++ [event]) = firstWrite events := by
      rw [firstWrite_append, hevent, Option.or_none]
    refine Or.inr ⟨hbuf, hfits, hfailed, ?_, by rwa [hfirst]⟩
    rw [left, hfirst]
    exact hfile

/-- What a failed `write_pending` leaves. -/
theorem Buffered.over {fault : Option ℕ} (h : Buffered s₀ e events s)
    (hwrite : (s.writePending fault).2 = false) (hlog : s'.toLog = (s.writePending fault).1) :
    Over s₀ e (events ++ [.write fault]) s' := by
  have hne := h.ne_nil
  obtain ⟨hfile, hbuf, hfits, hfailed, hnone⟩ := h
  cases fault with
  | none => simp [Log.writePending_none hne] at hwrite
  | some n =>
    have hfirst : firstWrite (events ++ [.write (some n)]) = some (some n) := by
      rw [firstWrite_append, hnone]
      rfl
    rw [Log.writePending_some hne] at hlog
    refine Or.inr ⟨by rw [hlog], hfits, hfailed, ?_, by simp [hfirst]⟩
    rw [hlog, left, hfirst]
    simp only [hfile, hbuf]

/-- With nothing in the buffer no write is made that could fail. -/
theorem Written.writePending (h : Written s₀ e events s) (fault : Option ℕ) :
    s.writePending fault = (s.toLog, true) := Log.writePending_nil h.2.1 fault

/-- What a successful `write_pending` leaves. -/
theorem written_of_writePending {fault : Option ℕ} (hfailed : s.failed = false)
    (h : Buffered s₀ e events s ∨ Written s₀ e events s)
    (hwrite : (s.writePending fault).2 = true) (hlog : s'.toLog = (s.writePending fault).1) :
    s'.failed = false ∧ Written s₀ e (events ++ [.write fault]) s' := by
  rcases h with hbuffered | hwritten
  · have hne := hbuffered.ne_nil
    obtain ⟨hfile, hbuf, hfits, hopen, hnone⟩ := hbuffered
    cases fault with
    | none =>
      rw [Log.writePending_none hne] at hlog
      rw [Written, hlog, firstWrite_append, hnone]
      exact ⟨hfailed, by simp only [hfile, hbuf], rfl, hfits, hopen, rfl⟩
    | some n => simp [Log.writePending_some hne] at hwrite
  · rw [hwritten.writePending] at hlog
    exact ⟨by rw [hlog]; exact hfailed, (hwritten.snoc _).congr hlog⟩

/-- An append that lets go of the append lock waits, or has returned. -/
theorem Alone.release (hfailed : s.failed = false)
    (h : Buffered s₀ e events s ∨ Written s₀ e events s) :
    Alone s₀ t e events (s.release t e) := by
  have hlog := toLog_release s t e
  have h' := h.imp (·.congr hlog) (·.congr hlog)
  unfold Alone
  rcases thread_release_self s t e with hpc | hpc <;> rw [hpc]
  · exact ⟨rfl, by rw [hlog]; exact hfailed, h'⟩
  · exact ⟨rfl, h'⟩

/-- The call itself. -/
theorem Alone.call {key : Bytes} {value : Option Bytes}
    (h : s.step (t, .append key value) = some s') :
    Alone s t ⟨key, s.lastSeq + 1, value⟩ [] s' := by
  cases moves_of_step h with
  | report hpc =>
    -- the error the background thread left is returned in place of an append
    rw [Alone, hpc]
    exact Or.inl ⟨rfl, rfl⟩
  | call =>
    rw [Alone, thread_goto_self]
    exact ⟨rfl, rfl, rfl, rfl⟩

/-- **One step of the append.** -/
theorem Alone.step (ha : Alone s₀ t e events s) (hseq : e.seq = s₀.lastSeq + 1)
    (hidle : s.thread t ≠ .idle) (hreturned : ∀ e', s.thread t ≠ .returned e')
    (h : s.step (t, event) = some s') : Alone s₀ t e (events ++ [event]) s' := by
  -- nobody else takes a number, so the record that is encoded is `e`
  have hrecord : ∀ {e' : Entry}, e'.key = e.key → e'.value = e.value → e'.seq = s.lastSeq + 1 →
      Untouched s₀ events s → e' = e := by
    rintro ⟨key, seq, value⟩ rfl rfl hseq' ⟨hlog, -⟩
    rw [hlog] at hseq'
    exact congrArg (Version.mk e.key · e.value) (by rw [hseq]; exact hseq')
  unfold Alone at ha
  cases moves_of_step h with
  | report hpc | call hpc | sync hpc => exact absurd hpc hidle
  | resume hpc => exact absurd hpc (hreturned _)
  | refuse hpc =>
    rw [hpc] at ha
    obtain ⟨-, -, huntouched⟩ := ha
    rw [Alone, thread_fail_self]
    exact Or.inl (huntouched.snoc rfl rfl)
  | tooLarge hpc =>
    rw [hpc] at ha
    obtain ⟨-, -, -, huntouched⟩ := ha
    rw [Alone, thread_fail_self]
    exact Or.inl (huntouched.snoc rfl rfl)
  | accept hpc hfailed =>
    rw [hpc] at ha
    obtain ⟨hkey, hvalue, huntouched⟩ := ha
    rw [Alone, thread_goto_self]
    exact ⟨hkey, hvalue, hfailed, huntouched.snoc rfl rfl⟩
  | @encode e' hpc hlock hseq' hfits =>
    rw [hpc] at ha
    obtain ⟨hkey, hvalue, hfailed, huntouched⟩ := ha
    obtain rfl := hrecord hkey hvalue hseq' huntouched
    rw [Alone, thread_goto_self]
    exact ⟨rfl, hfailed, huntouched.buffered hfailed hfits rfl rfl⟩
  | @buffer e' hpc hlock hseq' hfits =>
    rw [hpc] at ha
    obtain ⟨hkey, hvalue, hfailed, huntouched⟩ := ha
    obtain rfl := hrecord hkey hvalue hseq' huntouched
    exact Alone.release hfailed (Or.inl (huntouched.buffered hfailed hfits rfl rfl))
  | writeFail hpc hwrite =>
    rw [hpc] at ha
    obtain ⟨rfl, -, hbuffered⟩ := ha
    rw [Alone, thread_fail_self]
    exact hbuffered.over hwrite rfl
  | writeAlways hpc hwrite =>
    rw [hpc] at ha
    obtain ⟨rfl, hfailed, hbuffered⟩ := ha
    rw [Alone, thread_goto_self]
    exact ⟨rfl, written_of_writePending hfailed (Or.inl hbuffered) hwrite rfl⟩
  | @write e' fault hpc hwrite =>
    rw [hpc] at ha
    obtain ⟨rfl, hfailed, hbuffered⟩ := ha
    obtain ⟨hfailed', hwritten⟩ := written_of_writePending hfailed (Or.inl hbuffered) hwrite
      (show ({ s with toLog := (s.writePending fault).1 } : Shared).toLog = _ from rfl)
    exact Alone.release hfailed' (Or.inr hwritten)
  | beginFlush hpc =>
    rw [hpc] at ha
    obtain ⟨rfl, hfailed, hwritten⟩ := ha
    rw [Alone, thread_goto_self]
    exact ⟨rfl, hfailed, hwritten.snoc _⟩
  | endFlush hpc =>
    rw [hpc] at ha
    obtain ⟨rfl, hfailed, hwritten⟩ := ha
    exact Alone.release hfailed (Or.inr (hwritten.snoc _))
  | endFlushFail hpc =>
    rw [hpc] at ha
    obtain ⟨rfl, -, hwritten⟩ := ha
    rw [Alone, thread_fail_self]
    exact (hwritten.snoc _).over
  | covered hpc =>
    rw [hpc] at ha
    cases ha.1
  | acknowledge hpc =>
    rw [hpc] at ha
    obtain ⟨hrecord, -, h⟩ := ha
    rw [Alone, thread_acknowledge_self]
    exact ⟨Option.some.inj hrecord, h.imp (·.snoc rfl) (·.snoc _)⟩
  | giveUp hpc hfailed =>
    -- no other thread is there to have failed
    rw [hpc] at ha
    exact absurd (ha.2.1.symm.trans hfailed) (by simp)
  | own hpc =>
    rw [hpc] at ha
    obtain ⟨hrecord, hfailed, h⟩ := ha
    rw [Alone, thread_goto_self]
    exact ⟨hrecord, hfailed, h.imp (·.snoc rfl) (·.snoc _)⟩
  | drainFail hpc _ hwrite =>
    rw [hpc] at ha
    obtain ⟨-, -, hbuffered | hwritten⟩ := ha
    · rw [Alone, thread_goto_self]
      exact hbuffered.over hwrite rfl
    · rw [hwritten.writePending] at hwrite
      cases hwrite
  | drain hpc _ hwrite =>
    rw [hpc] at ha
    obtain ⟨hrecord, hfailed, h⟩ := ha
    rw [Alone, thread_goto_self]
    exact ⟨hrecord, written_of_writePending hfailed h hwrite rfl⟩
  | beginSync hpc | endSync hpc =>
    rw [hpc] at ha
    obtain ⟨hrecord, hfailed, hwritten⟩ := ha
    rw [Alone, thread_goto_self]
    exact ⟨hrecord, hfailed, hwritten.snoc _⟩
  | endSyncFail hpc =>
    rw [hpc] at ha
    rw [Alone, thread_goto_self]
    exact (ha.2.2.snoc _).over
  | publish hpc =>
    rw [hpc] at ha
    obtain ⟨hrecord, hfailed, hwritten⟩ := ha
    rw [Alone, thread_goto_self]
    exact ⟨hrecord, hfailed, Or.inr (hwritten.snoc _)⟩
  | publishFail hpc =>
    rw [hpc] at ha
    rw [Alone, thread_fail_self]
    exact (Over.snoc ha rfl).congr rfl

/-! ### What a reader finds in the file -/

/-- A frame cut short adds nothing. -/
theorem contents_append_take {bytes : Bytes} (h : Intact bytes) (hfits : Fits e) {n : ℕ}
    (hn : n < (frame e).length) :
    Wal.contents (bytes ++ (frame e).take n) = Wal.contents bytes := by
  conv_lhs => rw [h.eq_frames, List.append_assoc]
  exact contents_frames (contents_fits bytes) (readFrame_take hfits hn)

theorem contents_append_frame {bytes : Bytes} (h : Intact bytes) (hfits : Fits e) :
    Wal.contents (bytes ++ frame e) = Wal.contents bytes ++ [e] := by
  have := (h.append (show ∀ f ∈ [e], Fits f by simpa using hfits)).2
  rwa [frames_cons, frames_nil, List.append_nil] at this

/-- What a failed append leaves in the file once the buffer is written. -/
theorem Over.drained (h : Over s₀ e events s) : s.file ++ s.buf
    = s₀.file ++ (s₀.buf ++ frame e).take (left s₀.buf.length e events) := by
  rcases h with ⟨hlog, hnone⟩ | ⟨hbuf, -, -, hfile, -⟩
  · rw [hlog, left, hnone, List.take_left]
  · rw [hbuf, List.append_nil, hfile]

/-- **What a failed append adds to the records of the log**, if its write took what was in the
buffer before. -/
theorem Over.contents (h : Over s₀ e events s) (hi : s₀.toLog.Inv)
    (hkept : s₀.buf.length ≤ left s₀.buf.length e events) :
    Wal.contents (s.file ++ s.buf) = Wal.contents (s₀.file ++ s₀.buf)
      ++ if left s₀.buf.length e events < s₀.buf.length + (frame e).length then [] else [e] := by
  have hdrained := h.drained
  rw [List.take_append, List.take_of_length_le hkept, ← List.append_assoc] at hdrained
  rw [hdrained]
  rcases h with ⟨-, hnone⟩ | ⟨-, hfits, hfailed, -, -⟩
  · have hleft : left s₀.buf.length e events = s₀.buf.length := by rw [left, hnone]
    have hpos := List.length_pos_of_ne_nil (frame_ne_nil e)
    rw [hleft, Nat.sub_self, List.take_zero, List.append_nil, if_pos (by omega), List.append_nil]
  · have hintact := (hi.intact_drained hfailed).1
    split_ifs with hlt
    · rw [List.append_nil]
      exact contents_append_take hintact hfits (by omega)
    · rw [List.take_of_length_le (by omega)]
      exact contents_append_frame hintact hfits

end

end Shared

end Lsmkv.Wal
