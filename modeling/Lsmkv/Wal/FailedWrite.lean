import Lsmkv.Wal.GroupCommit

/-!
# Appends behind a failed write

`append` checks `failed` before it takes the append lock.  Two appends can both pass the check;
the write of the first may then fail and leave part of a record in the file, and the second goes
on to write its own record behind those bytes, flushes it and returns `Ok`.  Recovery stops at the
torn record, so the acknowledged one is lost (`acknowledged_append_lost`).

The log loses nothing in the runs where no buffer is handed to `write_all` once a write has
failed (`recoverable_of_no_write_after_failure`): the file then stays a run of whole records with
at most one torn write behind it.
-/

namespace Lsmkv.Wal.Shared

open Record Replay

/-- Every append that returned `Ok` is among the records `Wal::recover` returns for the file. -/
def Recoverable (s : Shared) : Prop :=
  ∀ number lastSeq, ∃ r, recover number (some s.file) lastSeq = .ok r
    ∧ ∀ e ∈ s.returned, e ∈ r.records

/-- A log just opened under one of the policies that promise durability. -/
def OpenedDurable (s : Shared) : Prop := Opened s ∧ s.policy ≠ .interval

/-- `sync_data` succeeds. -/
def FlushSucceeds (_ : Shared) (label : Thread × Event) : Prop := label.2 ≠ .endFlush false

instance (s : Shared) (label : Thread × Event) : Decidable (FlushSucceeds s label) :=
  inferInstanceAs (Decidable (_ ≠ _))

/-- No records are handed to `write_all` once a write has failed. -/
def NoWriteAfterFailure (s : Shared) (label : Thread × Event) : Prop :=
  ∀ fault, label.2 = .write fault → s.buf ≠ [] → s.failed = false

/-! ### The runs that lose nothing -/

/-- The file holds the records up to `written`, and behind them what one write left. -/
def Torn (s : Shared) : Prop :=
  ∃ es n, (∀ e ∈ es, Fits e)
    ∧ s.file = s.opened.file ++ frames (s.appended.take s.taken) ++ (frames es).take n

theorem Torn.step {s s' : Shared} {label : Thread × Event} (hi : s.Inv) (ht : s.Torn)
    (hok : NoWriteAfterFailure s label) (h : s.step label = some s') : s'.Torn := by
  obtain ⟨es, n, hes, hfile⟩ := ht
  rcases step_log h with hlog | ⟨e, -, -, hlog⟩ | ⟨fault, hevent, hlog⟩
  · refine ⟨es, n, hes, ?_⟩
    rw [hlog]
    exact hfile
  · refine ⟨es, n, hes, ?_⟩
    rw [hlog]
    change s.file = s.opened.file ++ frames ((s.appended ++ [e]).take s.taken) ++ (frames es).take n
    rw [List.take_append_of_le_length hi.log.taken_le, hfile]
  · by_cases hbuf : s.buf = []
    · refine ⟨es, n, hes, ?_⟩
      rw [hlog, Log.writePending_nil hbuf]
      exact hfile
    · -- the first write that fails finds a log whose writes succeeded
      have hfailed := hok fault hevent hbuf
      cases fault with
      | none =>
        refine ⟨[], 0, by simp, ?_⟩
        have hwritten := (hi.log.writePending none).file
        rw [Log.writePending_none hbuf] at hwritten
        rw [hlog, Log.writePending_none hbuf, List.take_zero, List.append_nil]
        exact hwritten hfailed
      | some k =>
        refine ⟨s.appended.drop s.taken, k,
          fun e he => hi.log.fits e (List.mem_of_mem_drop he), ?_⟩
        rw [hlog, Log.writePending_some hbuf, ← hi.log.buf hfailed]
        change s.file ++ s.buf.take k = _
        rw [hi.log.file hfailed]
        rfl

/-- Whatever one write left behind the records up to `written`, those are recovered. -/
theorem Torn.mem_contents {s : Shared} (hi : s.Inv) (ht : s.Torn) {e : Entry}
    (he : e ∈ s.appended) (hle : e.seq ≤ s.written) : e ∈ contents s.file := by
  obtain ⟨es, n, hes, hfile⟩ := ht
  have hfits : ∀ f ∈ s.appended.take s.taken, Fits f :=
    fun f hf => hi.log.fits f (List.mem_of_mem_take hf)
  obtain ⟨hintact, hcontents⟩ := hi.log.intact.append hfits
  obtain ⟨j, hj⟩ := hintact.append_take hes n
  rw [hfile, hj, hcontents]
  have hmem : e ∈ s.appended.take s.taken :=
    hi.log.mem_take he (by rw [hi.log.add_taken]; exact hle)
  exact List.mem_append_left _ (List.mem_append_right _ hmem)

theorem Torn.readable {s : Shared} (hi : s.Inv) (ht : s.Torn) : Readable s.file := by
  obtain ⟨es, n, -, hfile⟩ := ht
  obtain ⟨ds, -, hopened⟩ := hi.log.intact
  rw [hfile, hopened, List.append_assoc, List.append_assoc]
  exact Readable.append List.prefix_rfl _

/-- **Acknowledged appends are recoverable** in every run that hands nothing to `write_all` once a
write has failed, whatever writes and flushes fail. -/
theorem recoverable_of_no_write_after_failure {s : Shared}
    (hs : Reachable step NoWriteAfterFailure OpenedDurable s) : s.Recoverable := by
  have hopened : Reachable step NoWriteAfterFailure Opened s := by
    induction hs with
    | start h => exact .start h.1
    | step _ ha ht ih => exact ih.step ha ht
  have hi := inv_of_reachable hopened
  have htorn : s.Torn := by
    refine hopened.invariant ?_ ?_
    · rintro _ ⟨_, _, _, _, _, _, rfl⟩
      exact ⟨[], 0, by simp, by simp [Shared.new]⟩
    · exact fun _ _ _ hr ht hok h => ht.step (inv_of_reachable hr) hok h
  have hpolicy : s.policy ≠ .interval := by
    refine hs.invariant (fun _ h => h.2) (fun u _ v _ hp _ h => ?_)
    rw [(step_policy h).1]
    exact hp
  intro number lastSeq
  obtain ⟨r, hr, hrecords, -⟩ := recover_spec number lastSeq
    (show Readable ((some s.file).getD []) from htorn.readable hi)
  refine ⟨r, hr, fun e he => ?_⟩
  obtain ⟨hmem, halways, hgroup⟩ := hi.done e he
  rw [hrecords]
  refine htorn.mem_contents hi hmem ?_
  cases hp : s.policy with
  | always => exact halways hp
  | group => exact (hgroup hp).trans hi.durable_le
  | interval => exact absurd hp hpolicy

/-- One append under `Always`, and a second one whose write fails after three bytes. -/
def oneThenTorn : List (Thread × Event) :=
  let one := Thread.client 1
  [(one, .append [1] (some [7])), (one, .accept), (one, .encode), (one, .write none),
    (one, .beginFlush), (one, .endFlush true), (one, .resume),
    (one, .append [2] none), (one, .accept), (one, .encode), (one, .write (some 3))]

theorem recoverable_of_no_write_after_failure_oneThenTorn :
    ∃ s : Shared, s.failed = true ∧ s.returned.length = 1 ∧ s.Recoverable := by
  obtain ⟨s, hs, htest⟩ : ∃ s, Reachable step NoWriteAfterFailure OpenedDurable s
      ∧ (s.failed = true ∧ s.returned.length = 1 : Bool) = true :=
    Reachable.exists_of_run
      (fun s label hlabel fault hwrite hbuf => by
        obtain ⟨t, event⟩ := label
        obtain rfl : event = .write fault := hwrite
        simpa [hbuf] using of_decide_eq_true hlabel)
      ⟨⟨1, none, 0, .always, ⟨fileHeader, 0, []⟩, rfl, rfl⟩, by decide⟩
      (by decide +kernel : (run step
        (fun s label => decide (s.buf = [] ∨ s.failed = false ∨ label.2 = .resume))
        (Shared.new .always ⟨fileHeader, 0, []⟩) oneThenTorn).map
          (fun s => decide (s.failed = true ∧ s.returned.length = 1)) = some true)
  obtain ⟨hfailed, hlen⟩ := of_decide_eq_true htest
  exact ⟨s, hfailed, hlen, recoverable_of_no_write_after_failure hs⟩

/-! ### A run that loses an acknowledged append -/

/-- Two appends under `Always` pass the check of `failed`.  The write of the first fails after
three bytes; the second writes, flushes and returns. -/
def appendBehindTorn : List (Thread × Event) :=
  let one := Thread.client 1
  let two := Thread.client 2
  [(one, .append [1] (some [7])), (one, .accept), (two, .append [2] (some [8])), (two, .accept),
    (one, .encode), (one, .write (some 3)),
    (two, .encode), (two, .write none), (two, .beginFlush), (two, .endFlush true)]

/-- **An acknowledged append can be lost**, although every `sync_data` succeeds. -/
theorem acknowledged_append_lost :
    ¬ ∀ s, Reachable step FlushSucceeds OpenedDurable s → s.Recoverable := by
  intro hall
  obtain ⟨s, hs, htest⟩ : ∃ s, Reachable step FlushSucceeds OpenedDurable s
      ∧ (s.returned = [⟨[2], 2, some [8]⟩]
        ∧ recover 1 (some s.file) 0 = .ok ⟨fileHeader, 0, []⟩ : Bool) = true :=
    Reachable.exists_of_run (fun _ _ hlabel => of_decide_eq_true hlabel)
      ⟨⟨1, none, 0, .always, ⟨fileHeader, 0, []⟩, rfl, rfl⟩, by decide⟩
      (by decide +kernel : (run step (fun s label => decide (FlushSucceeds s label))
        (Shared.new .always ⟨fileHeader, 0, []⟩) appendBehindTorn).map
          (fun s => decide (s.returned = [⟨[2], 2, some [8]⟩]
            ∧ recover 1 (some s.file) 0 = .ok ⟨fileHeader, 0, []⟩)) = some true)
  obtain ⟨hreturned, hrecover⟩ := of_decide_eq_true htest
  obtain ⟨r, hr, hmem⟩ := hall s hs 1 0
  rw [hrecover] at hr
  obtain rfl := Except.ok.inj hr
  have := hmem ⟨[2], 2, some [8]⟩ (by rw [hreturned]; exact List.mem_singleton_self _)
  cases this

end Lsmkv.Wal.Shared
