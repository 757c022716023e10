import Lsmkv.Wal.Recover

/-!
# The records of an open log

The file of an open log, the buffer of records it has not taken yet, and the numbers handed out.
`opened` is what `recover` found and `appended` the records encoded since; the two are history
variables that no operation reads.

`Log.Inv` says how the pieces fit while writes succeed: the file has taken the first `taken`
records and the buffer holds the rest.  After a failed write only the numbering is left.
-/

namespace Lsmkv.Wal

open Record Replay

/-- When appended bytes are pushed to the device. -/
inductive SyncPolicy where
  | always
  | group
  | interval
  deriving DecidableEq, Repr

/-- The file of an open log, the records waiting for it and the numbers handed out. -/
structure Log where
  policy : SyncPolicy
  file : Bytes
  buf : Bytes
  written : ℕ
  lastSeq : ℕ
  failed : Bool
  opened : Recovered
  appended : List Entry
  deriving DecidableEq, Repr

namespace Log

/-- The record `e` was encoded into the buffer, which now is `buf`. -/
def push (l : Log) (e : Entry) (buf : Bytes) : Log :=
  { l with buf := buf, lastSeq := e.seq, appended := l.appended ++ [e] }

/-- Hands every buffered record to the operating system, and tells whether that worked.  A `fault`
of `some n` makes `write_all` fail after `n` bytes. -/
def writePending (l : Log) (fault : Option ℕ) : Log × Bool :=
  if l.buf = [] then (l, true)
  else
    match fault with
    | none => ({ l with file := l.file ++ l.buf, buf := [], written := l.lastSeq }, true)
    | some n => ({ l with file := l.file ++ l.buf.take n, buf := [], failed := true }, false)

theorem file_writePending_none (l : Log) : (l.writePending none).1.file = l.file ++ l.buf := by
  unfold writePending
  split_ifs with h
  · rw [h, List.append_nil]
  · rfl

/-- How many of the records appended since the log was opened the file has taken. -/
def taken (l : Log) : ℕ := l.written - l.opened.lastSeq

/-- The numbering of the records, and while no write has failed where they are. -/
structure Inv (l : Log) : Prop where
  intact : Intact l.opened.file
  seqs : l.appended.map Version.seq = List.range' (l.opened.lastSeq + 1) l.appended.length
  fits : ∀ e ∈ l.appended, Fits e
  last : l.lastSeq = l.opened.lastSeq + l.appended.length
  base_le : l.opened.lastSeq ≤ l.written
  written_le : l.written ≤ l.lastSeq
  file : l.failed = false → l.file = l.opened.file ++ frames (l.appended.take l.taken)
  buf : l.failed = false → l.buf = frames (l.appended.drop l.taken)

section

variable {l : Log}

theorem Inv.taken_le (h : l.Inv) : l.taken ≤ l.appended.length := by
  have := h.last
  have := h.written_le
  unfold taken
  omega

theorem Inv.add_taken (h : l.Inv) : l.opened.lastSeq + l.taken = l.written := by
  have := h.base_le
  unfold taken
  omega

/-- The records appended are numbered past what the log was opened with. -/
theorem Inv.seq_bounds (h : l.Inv) {e : Entry} (he : e ∈ l.appended) :
    l.opened.lastSeq < e.seq ∧ e.seq ≤ l.lastSeq := by
  have hmem : e.seq ∈ l.appended.map Version.seq := List.mem_map_of_mem he
  rw [h.seqs, List.mem_range'_1] at hmem
  have := h.last
  omega

/-- Of consecutively numbered records, those up to a number are the first ones. -/
theorem filter_seq_le {es : List Entry} {base : ℕ}
    (h : es.map Version.seq = List.range' (base + 1) es.length) (n : ℕ) :
    es.filter (fun e => e.seq ≤ base + n) = es.take n
      ∧ es.filter (fun e => base + n < e.seq) = es.drop n := by
  induction es generalizing base n with
  | nil => simp
  | cons e es ih =>
    rw [List.map_cons, List.length_cons, List.range'_succ] at h
    obtain ⟨he, hes⟩ := List.cons.inj h
    cases n with
    | zero =>
      have hbelow : ∀ f ∈ e :: es, base < f.seq := by
        intro f hf
        rcases List.mem_cons.mp hf with rfl | hf
        · omega
        · have hmem : f.seq ∈ es.map Version.seq := List.mem_map_of_mem hf
          rw [hes, List.mem_range'_1] at hmem
          omega
      refine ⟨List.filter_eq_nil_iff.mpr fun f hf => ?_, List.filter_eq_self.mpr fun f hf => ?_⟩
      · simpa using hbelow f hf
      · simpa using hbelow f hf
    | succ n =>
      have := ih hes n
      rw [Nat.add_right_comm base 1 n] at this
      have hle : e.seq ≤ base + (n + 1) := by omega
      rw [List.filter_cons_of_pos (by simpa using hle),
        List.filter_cons_of_neg (by simpa using hle)]
      exact ⟨congrArg (e :: ·) this.1, this.2⟩

/-- The records up to `base + n` are the first `n`. -/
theorem Inv.mem_take (h : l.Inv) {e : Entry} (he : e ∈ l.appended) {n : ℕ}
    (hn : e.seq ≤ l.opened.lastSeq + n) : e ∈ l.appended.take n := by
  rw [← (filter_seq_le h.seqs n).1, List.mem_filter]
  exact ⟨he, decide_eq_true hn⟩

/-- The numbers of the records increase. -/
theorem Inv.pairwise (h : l.Inv) : l.appended.Pairwise fun e f => e.seq < f.seq := by
  have : (l.appended.map Version.seq).Pairwise (· < ·) := by
    rw [h.seqs]
    exact List.pairwise_lt_range'
  rwa [List.pairwise_map] at this

/-! ### The two operations -/

/-- The next record goes behind the ones the buffer holds. -/
theorem Inv.push (h : l.Inv) {e : Entry} (he : Fits e) (hseq : e.seq = l.lastSeq + 1) :
    (l.push e (l.buf ++ frame e)).Inv := by
  have hlast := h.last
  have htaken := h.taken_le
  refine { h with seqs := ?_, fits := ?_, last := ?_, written_le := ?_, file := ?_, buf := ?_ }
  · simp only [Log.push, List.map_append, List.map_cons, List.map_nil, List.length_append,
      List.length_cons, List.length_nil, h.seqs, hseq, hlast, zero_add]
    rw [List.range'_concat, one_mul, Nat.add_right_comm]
  · intro f hf
    rcases List.mem_append.mp hf with hf | hf
    · exact h.fits f hf
    · rw [List.mem_singleton.mp hf]
      exact he
  · simp only [Log.push, List.length_append, List.length_cons, List.length_nil]
    omega
  · have := h.written_le
    simp only [Log.push]
    omega
  · intro hfailed
    change l.file = l.opened.file ++ frames ((l.appended ++ [e]).take l.taken)
    rw [List.take_append_of_le_length htaken, h.file hfailed]
  · intro hfailed
    change l.buf ++ frame e = frames ((l.appended ++ [e]).drop l.taken)
    rw [List.drop_append_of_le_length htaken, frames_append, ← h.buf hfailed, frames_cons,
      frames_nil, List.append_nil]

/-- The file and the buffer of a log none of whose writes failed hold every record. -/
theorem Inv.drained (h : l.Inv) (hfailed : l.failed = false) :
    l.file ++ l.buf = l.opened.file ++ frames l.appended := by
  rw [h.file hfailed, h.buf hfailed, List.append_assoc, ← frames_append, List.take_append_drop]

theorem Inv.intact_drained (h : l.Inv) (hfailed : l.failed = false) :
    Intact (l.file ++ l.buf)
      ∧ contents (l.file ++ l.buf) = contents l.opened.file ++ l.appended := by
  rw [h.drained hfailed]
  exact h.intact.append h.fits

theorem writePending_nil (hbuf : l.buf = []) (fault : Option ℕ) :
    l.writePending fault = (l, true) := if_pos hbuf

theorem writePending_none (hbuf : l.buf ≠ []) :
    l.writePending none
      = ({ l with file := l.file ++ l.buf, buf := [], written := l.lastSeq }, true) := if_neg hbuf

theorem writePending_some (hbuf : l.buf ≠ []) (n : ℕ) :
    l.writePending (some n)
      = ({ l with file := l.file ++ l.buf.take n, buf := [], failed := true }, false) := if_neg hbuf

theorem Inv.writePending (h : l.Inv) (fault : Option ℕ) : (l.writePending fault).1.Inv := by
  have hlast := h.last
  unfold Log.writePending
  split_ifs with hbuf
  · exact h
  · cases fault with
    | none =>
      have htaken : l.lastSeq - l.opened.lastSeq = l.appended.length := by omega
      refine { h with
        base_le := hlast ▸ Nat.le_add_right _ _, written_le := le_rfl, file := ?_, buf := ?_ }
      · -- the file takes the buffer, so it holds every record
        intro hfailed
        change l.file ++ l.buf = l.opened.file
          ++ frames (l.appended.take (l.lastSeq - l.opened.lastSeq))
        rw [htaken, List.take_length]
        exact h.drained hfailed
      · intro _
        change [] = frames (l.appended.drop (l.lastSeq - l.opened.lastSeq))
        rw [htaken, List.drop_length, frames_nil]
    | some n =>
      exact { h with file := fun hf => by simp at hf, buf := fun hf => by simp at hf }

/-- `write_pending` touches the file, the buffer and what it knows about them only; it empties the
buffer, and if there was something to write and the write worked, every record is in the file. -/
theorem writePending_spec (l : Log) (fault : Option ℕ) :
    (l.writePending fault).1.policy = l.policy
      ∧ (l.writePending fault).1.opened = l.opened
      ∧ (l.writePending fault).1.appended = l.appended
      ∧ (l.writePending fault).1.lastSeq = l.lastSeq
      ∧ (l.writePending fault).1.buf = []
      ∧ ((l.writePending fault).2 = true → l.buf ≠ [] →
        (l.writePending fault).1.written = l.lastSeq)
      ∧ ((l.writePending fault).1.failed = false → l.failed = false) := by
  unfold Log.writePending
  split_ifs with hbuf
  · exact ⟨rfl, rfl, rfl, rfl, hbuf, fun _ h => absurd hbuf h, id⟩
  · cases fault with
    | none => exact ⟨rfl, rfl, rfl, rfl, rfl, fun _ _ => rfl, id⟩
    | some n => exact ⟨rfl, rfl, rfl, rfl, rfl, fun h => by simp at h, fun h => by simp at h⟩

theorem Inv.written_le_writePending (h : l.Inv) (fault : Option ℕ) :
    l.written ≤ (l.writePending fault).1.written := by
  unfold Log.writePending
  split_ifs
  · exact le_rfl
  · cases fault with
    | none => exact h.written_le
    | some n => exact le_rfl

end

end Log

end Lsmkv.Wal
