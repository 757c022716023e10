import Lsmkv.Lib.Iter
import Lsmkv.Wal.Calm

/-!
# Restarting from a log file

Two facts about `Wal::recover` and the appends behind it.  A log that was cut anywhere recovers the
whole records before the cut, and the cut is noticed by a length (`recover_take`).  Whatever bytes a
log file holds, if it opens at all then it is left as the log of the records that were returned, and
later appends stay behind them over any number of restarts (`recover_restart`).

The replay is followed call by call: `Replay.InRange` says where it stands in the file.  A session
of the open log is followed as what reaches its records, appends and writes of the buffer in any
order (`Log.apply`), so that it covers all policies and interleavings; `exists_ops_of_reachable`
says that the threads of `Lsmkv.Wal.Shared` do nothing else.
-/

namespace Lsmkv

open Record Replay

/-- What `encode` appends to a buffer for a mutation. -/
def Record.encoding (e : Entry) : Bytes := (encode [] e.seq e.key e.value).2

theorem Record.encoding_of_fits {e : Entry} (h : Fits e) : encoding e = frame e := by
  rw [encoding, encode_of_fits [] h.2]
  rfl

theorem Record.fits_of_encode {e : Entry} (hseq : e.seq < u64Limit)
    (h : (encode [] e.seq e.key e.value).1 = .ok ()) : Fits e := by
  refine ⟨hseq, ?_⟩
  by_contra hlong
  obtain ⟨len, hlen⟩ := encode_of_not_fits [] hlong
  rw [hlen] at h
  cases h

theorem Replay.encodings_eq {es : List Entry} (hes : ∀ e ∈ es, Fits e) :
    es.flatMap encoding = frames es := List.flatMap_congr fun e he => encoding_of_fits (hes e he)

namespace Wal

/-- The log of some records recovers as it is. -/
theorem recover_frames (number lastSeq : ℕ) {es : List Entry} (hes : ∀ e ∈ es, Fits e)
    {tail : Bytes} (htail : readFrame tail = none) :
    ∃ seq, recover number (some (fileHeader ++ (frames es ++ tail))) lastSeq
      = .ok ⟨fileHeader ++ frames es, seq, es⟩ := by
  have h := recover_header number lastSeq (List.prefix_append fileHeader (frames es ++ tail))
  rw [contents_frames hes htail] at h
  exact ⟨_, h⟩

/-- **A log cut anywhere** recovers the longest run of records whose encodings fit into what is
left, and is left as the log of these.  What stands behind them in the file is shorter than a
header, or than the record its header announces. -/
theorem recover_take (number lastSeq : ℕ) {es : List Entry} (hseq : ∀ e ∈ es, e.seq < u64Limit)
    (hes : ∀ e ∈ es, (encode [] e.seq e.key e.value).1 = .ok ()) (n : ℕ) :
    ∃ j r, recover number (some ((fileHeader ++ es.flatMap encoding).take n)) lastSeq = .ok r
      ∧ r.records = es.take j ∧ r.file = fileHeader ++ (es.take j).flatMap encoding
      ∧ (∀ i ≤ es.length,
        i ≤ j ↔ i = 0 ∨ (fileHeader ++ (es.take i).flatMap encoding).length ≤ n)
      ∧ (fileHeader.length ≤ n → ∃ tail,
        (fileHeader ++ es.flatMap encoding).take n = r.file ++ tail ∧ CutShort tail) := by
  have hfits : ∀ e ∈ es, Fits e := fun e he => fits_of_encode (hseq e he) (hes e he)
  have hencodings : ∀ i, (es.take i).flatMap encoding = frames (es.take i) := fun i =>
    encodings_eq fun e he => hfits e (List.mem_of_mem_take he)
  simp only [encodings_eq hfits, hencodings]
  by_cases hn : n < fileHeaderLen
  · -- the cut is inside the header
    have hshort : ((some ((fileHeader ++ frames es).take n)).getD []).length < fileHeaderLen := by
      rw [Option.getD_some, List.length_take]
      omega
    refine ⟨0, _, recover_short number lastSeq hshort, rfl, by simp, fun i _ => ?_, fun h => ?_⟩
    · rw [List.length_append, length_fileHeader]
      omega
    · rw [length_fileHeader] at h
      omega
  · obtain ⟨j, tail, htake, hcut, hmax⟩ := exists_take_frames hfits (n - fileHeaderLen)
    have hbytes : (fileHeader ++ frames es).take n
        = fileHeader ++ (frames (es.take j) ++ tail) := by
      rw [List.take_append, length_fileHeader, htake,
        List.take_of_length_le (by rw [length_fileHeader]; omega)]
    obtain ⟨seq, hrecover⟩ := recover_frames number lastSeq
      (fun e he => hfits e (List.mem_of_mem_take he)) (readFrame_of_cutShort hcut)
    rw [hbytes]
    refine ⟨j, _, hrecover, rfl, rfl, fun i hi => ?_, fun _ => ⟨tail, ?_, hcut⟩⟩
    · rw [hmax i hi, List.length_append, length_fileHeader]
      rcases Nat.eq_zero_or_pos i with rfl | hpos
      · simp
      · omega
    · rw [List.append_assoc]

/-- Two records of 26 and 22 bytes behind the header, cut inside the second. -/
theorem recover_take_two :
    ∃ r, recover 1
      (some ((fileHeader ++ [⟨[1], 1, some []⟩, ⟨[2], 2, none⟩].flatMap encoding).take 40)) 0
        = .ok r
      ∧ r.records = [⟨[1], 1, some []⟩] := by
  obtain ⟨j, r, hr, hrecords, -, hj, -⟩ := @recover_take 1 0 [⟨[1], 1, some []⟩, ⟨[2], 2, none⟩]
    (by decide) (by decide +kernel) 40
  refine ⟨r, hr, ?_⟩
  have h1 := (hj 1 (by decide)).mpr (Or.inr (by decide +kernel))
  have h2 : ¬ 2 ≤ j := fun h => absurd ((hj 2 le_rfl).mp h) (by decide +kernel)
  obtain rfl : j = 1 := by omega
  exact hrecords

end Wal

/-! ### Where the replay stands -/

namespace Replay

/-- The offsets of a replay of the file `bytes` lie in the file, and what is left to read is what
stands behind its position.  So `file_len - pos` does not underflow and is its length. -/
structure InRange (bytes : Bytes) (replay : Replay) : Prop where
  fileLen : replay.fileLen ≤ bytes.length
  pos : replay.pos ≤ replay.fileLen
  tornAt : ∀ offset, replay.tornAt = some offset → offset ≤ replay.fileLen
  reader : ∀ rest, replay.reader = some rest →
    replay.fileLen = bytes.length ∧ rest = bytes.drop replay.pos

variable {bytes : Bytes} {replay : Replay}

theorem inRange_of_openFile {number : ℕ} (h : openFile number (some bytes) = .ok replay) :
    InRange bytes replay := by
  simp only [openFile] at h
  split_ifs at h with hempty hshort hmagic hversion
  · obtain rfl := Except.ok.inj h
    exact ⟨Nat.zero_le _, le_rfl, (fun _ h => by cases h), fun _ h => by cases h⟩
  · obtain rfl := Except.ok.inj h
    refine ⟨Nat.zero_le _, le_rfl, fun offset h => ?_, fun _ h => by cases h⟩
    exact (Option.some.inj h).ge
  · obtain rfl := Except.ok.inj h
    refine ⟨le_rfl, not_lt.mp hshort, (fun _ h => by cases h), fun rest h => ?_⟩
    exact ⟨rfl, (Option.some.inj h).symm⟩

theorem InRange.next (h : InRange bytes replay) : InRange bytes replay.next.2 := by
  unfold Replay.next
  cases hreader : replay.reader with
  | none => exact h
  | some rest =>
    obtain ⟨hlen, hrest⟩ := h.reader rest hreader
    dsimp only
    unfold readRecord
    split_ifs with hend
    · exact ⟨h.fileLen, h.pos, h.tornAt, fun _ h => by cases h⟩
    · cases hframe : readFrame rest with
      | none =>
        refine ⟨h.fileLen, h.pos, fun offset hoffset => ?_, fun _ h => by cases h⟩
        obtain rfl := Option.some.inj hoffset
        exact h.pos
      | some p =>
        obtain ⟨e, left⟩ := p
        obtain ⟨heq, -⟩ := readFrame_eq_some hframe
        have hleft : rest.length - left.length = (frame e).length := by
          rw [heq, List.length_append, Nat.add_sub_cancel]
        have hpos := h.pos
        have hrestLen : rest.length = bytes.length - replay.pos := by
          rw [hrest, List.length_drop]
        have hfits : (frame e).length ≤ rest.length := by
          rw [heq, List.length_append]
          exact Nat.le_add_right _ _
        refine ⟨h.fileLen, ?_, h.tornAt, fun rest' hrest' => ⟨hlen, ?_⟩⟩
        · dsimp only
          rw [hleft]
          omega
        · obtain rfl := Option.some.inj hrest'
          dsimp only
          rw [hleft, ← List.drop_drop, ← hrest, heq, List.drop_left]

/-- Every call either ends the replay or takes bytes off what is left. -/
theorem next_cases (replay : Replay) : Exhausted Replay.next replay
    ∨ ∃ e replay', replay.next = (some e, replay')
      ∧ (replay'.reader.getD []).length < (replay.reader.getD []).length := by
  cases hreader : replay.reader with
  | none =>
    left
    refine exhausted_of_eq ?_
    rw [Replay.next, hreader]
  | some rest =>
    -- a replay that has given up its reader returns nothing
    have hends : ∀ torn, Exhausted Replay.next { replay with reader := none, tornAt := torn } :=
      fun torn => exhausted_of_eq rfl
    by_cases hend : rest.length = 0
    · left
      refine Exhausted.of_next ?_ (hends replay.tornAt)
      rw [Replay.next, hreader]
      dsimp only
      rw [readRecord, if_pos hend]
    · cases hframe : readFrame rest with
      | none =>
        left
        refine Exhausted.of_next ?_ (hends (some replay.pos))
        rw [Replay.next, hreader]
        dsimp only
        rw [readRecord, if_neg hend, hframe]
      | some p =>
        obtain ⟨e, left⟩ := p
        obtain ⟨heq, -⟩ := readFrame_eq_some hframe
        right
        refine ⟨e, { replay with reader := some left
                                 pos := replay.pos + (rest.length - left.length) }, ?_, ?_⟩
        · rw [Replay.next, hreader]
          dsimp only
          rw [readRecord, if_neg hend, hframe]
        · have := length_frame e
          rw [Option.getD_some, Option.getD_some, heq, List.length_append, this, headerLen]
          omega

/-- `collect` asks the iterator until it returns nothing. -/
theorem fst_collect (fuel : ℕ) (replay : Replay) :
    (collect fuel replay).1 = drainIter Replay.next fuel replay := by
  induction fuel generalizing replay with
  | zero => rfl
  | succ fuel ih =>
    rw [collect, drainIter]
    cases replay.next with
    | mk item replay' =>
      cases item with
      | none => rfl
      | some e =>
        dsimp only
        rw [ih]

/-- **The replay ends**, and `records` returns all it yields. -/
theorem yields_records (h : InRange bytes replay) :
    Yields Replay.next replay replay.records.1 := by
  obtain ⟨l, hl, hlen⟩ := exists_yields next_cases replay
  have hbound : (replay.reader.getD []).length ≤ replay.fileLen := by
    cases hreader : replay.reader with
    | none => exact Nat.zero_le _
    | some rest =>
      obtain ⟨hfile, rfl⟩ := h.reader rest hreader
      rw [Option.getD_some, List.length_drop, hfile]
      exact Nat.sub_le _ _
  rw [records, fst_collect, drainIter_eq hl (by omega)]
  exact hl

end Replay

/-! ### Sessions of an open log -/

namespace Wal

/-- What reaches the records of an open log: an append encodes one into the buffer, and an append, a
flush or the end of the log may write the buffer out. -/
inductive LogOp where
  | append (key : Bytes) (value : Option Bytes)
  | write
  deriving DecidableEq, Repr

/-- The key and the value an append writes, if `encode` accepts them: whether it does depends on
their lengths, and not on the number of the record. -/
def LogOp.accepted : LogOp → Option (Bytes × Option Bytes)
  | .append key value =>
    if (encode [] 0 key value).1.isOk then some (key, value) else none
  | .write => none

theorem isOk_encode (buf : Bytes) (seq : ℕ) (key : Bytes) (value : Option Bytes) :
    (encode buf seq key value).1.isOk
      = decide ((payload ⟨key, seq, value⟩).length < u32Limit) := by
  by_cases hfits : (payload ⟨key, seq, value⟩).length < u32Limit
  · rw [encode_of_fits buf hfits, decide_eq_true hfits]
    rfl
  · obtain ⟨len, hlen⟩ := encode_of_not_fits buf hfits
    rw [hlen, decide_eq_false hfits]
    rfl

theorem LogOp.accepted_append (key : Bytes) (value : Option Bytes) (seq : ℕ) :
    (LogOp.append key value).accepted
      = if (payload ⟨key, seq, value⟩).length < u32Limit then some (key, value) else none := by
  have hlen : (payload ⟨key, seq, value⟩).length = (payload ⟨key, 0, value⟩).length := by
    rw [length_payload, length_payload]
  simp only [LogOp.accepted, isOk_encode, decide_eq_true_eq, hlen]

namespace Log

/-- One operation, while writes succeed.  The number behind the largest one wraps in a release
build; with overflow checks that append panics instead. -/
def apply (l : Log) : LogOp → Log
  | .append key value =>
    let seq := (l.lastSeq + 1) % u64Limit
    match encode l.buf seq key value with
    | (.error _, buf) => { l with buf := buf }
    | (.ok (), buf) => l.push ⟨key, seq, value⟩ buf
  | .write => (l.writePending none).1

/-- A session of an open log. -/
def run (l : Log) (ops : List LogOp) : Log := ops.foldl apply l

/-- `Drop for Wal`: the file it leaves. -/
def close (l : Log) : Bytes := (l.writePending none).1.file

/-- The file and the buffer make up the log of the records `es` and of those appended. -/
structure Keeps (es : List Entry) (l : Log) : Prop where
  fits : ∀ e ∈ es ++ l.appended, Fits e
  bytes : l.file ++ l.buf = fileHeader ++ frames (es ++ l.appended)

variable {es : List Entry} {l : Log}

/-- A record that does not fit leaves the log as it was. -/
theorem apply_append (l : Log) (key : Bytes) (value : Option Bytes) {e : Entry}
    (he : e = ⟨key, (l.lastSeq + 1) % u64Limit, value⟩) :
    l.apply (.append key value)
      = if (payload e).length < u32Limit then l.push e (l.buf ++ frame e) else l := by
  subst he
  split
  · rename_i hfits
    have hencode := encode_of_fits l.buf hfits
    rw [Log.apply, hencode]
  · rename_i hfits
    obtain ⟨len, hlen⟩ := encode_of_not_fits l.buf hfits
    rw [Log.apply, hlen]

theorem Keeps.apply (h : Keeps es l) (op : LogOp) : Keeps es (l.apply op) := by
  cases op with
  | append key value =>
    set e : Entry := ⟨key, (l.lastSeq + 1) % u64Limit, value⟩ with he
    rw [l.apply_append key value he]
    by_cases hfits : (payload e).length < u32Limit
    · have hrecords : es ++ (l.appended ++ [e]) = (es ++ l.appended) ++ [e] :=
        (List.append_assoc _ _ _).symm
      rw [if_pos hfits]
      refine ⟨fun f hf => ?_, ?_⟩
      · change f ∈ es ++ (l.appended ++ [e]) at hf
        rw [hrecords, List.mem_append, List.mem_singleton] at hf
        rcases hf with hf | rfl
        · exact h.fits f hf
        · exact ⟨Nat.mod_lt _ (by decide), hfits⟩
      · change l.file ++ (l.buf ++ frame e) = fileHeader ++ frames (es ++ (l.appended ++ [e]))
        rw [hrecords, frames_append, ← List.append_assoc, h.bytes, List.append_assoc]
        simp
    · rw [if_neg hfits]
      exact h
  | write =>
    obtain ⟨-, -, happended, -, hbuf, -, -⟩ := l.writePending_spec none
    have hfile := l.file_writePending_none
    change Keeps es (l.writePending none).1
    refine ⟨by rw [happended]; exact h.fits, ?_⟩
    rw [hfile, hbuf, List.append_nil, happended, h.bytes]

theorem Keeps.run (h : Keeps es l) (ops : List LogOp) : Keeps es (l.run ops) := by
  induction ops generalizing l with
  | nil => exact h
  | cons op ops ih => exact ih (h.apply op)

/-- One operation appends what it writes, if that is accepted, and nothing else. -/
theorem appended_apply (l : Log) (op : LogOp) :
    (l.apply op).appended.map (fun e => (e.key, e.value))
      = l.appended.map (fun e => (e.key, e.value)) ++ op.accepted.toList := by
  cases op with
  | append key value =>
    rw [l.apply_append key value rfl, LogOp.accepted_append key value ((l.lastSeq + 1) % u64Limit)]
    split
    · exact List.map_append
    · exact (List.append_nil _).symm
  | write =>
    obtain ⟨-, -, happended, -⟩ := l.writePending_spec none
    change (l.writePending none).1.appended.map _ = _
    rw [happended]
    exact (List.append_nil _).symm

/-- **The records a session appends** are its accepted appends, in order. -/
theorem appended_run (l : Log) (ops : List LogOp) :
    (l.run ops).appended.map (fun e => (e.key, e.value))
      = l.appended.map (fun e => (e.key, e.value)) ++ ops.filterMap LogOp.accepted := by
  induction ops generalizing l with
  | nil => exact (List.append_nil _).symm
  | cons op ops ih =>
    change ((l.apply op).run ops).appended.map _ = _
    rw [ih, appended_apply, List.append_assoc, List.filterMap_cons]
    cases op.accepted <;> rfl

theorem Keeps.close (h : Keeps es l) : l.close = fileHeader ++ frames (es ++ l.appended) := by
  rw [Log.close, l.file_writePending_none, h.bytes]

theorem Keeps.new (policy : SyncPolicy) {r : Recovered} (hfits : ∀ e ∈ r.records, Fits e)
    (hfile : r.file = fileHeader ++ frames r.records) :
    Keeps r.records (Shared.new policy r).toLog := by
  constructor
  · change ∀ e ∈ r.records ++ [], Fits e
    rwa [List.append_nil]
  · change r.file ++ [] = fileHeader ++ frames (r.records ++ [])
    rw [List.append_nil, List.append_nil, hfile]

end Log

/-- Every step of a thread that meets no fault is a session of the log. -/
theorem Shared.exists_ops_of_step {s s' : Shared} {label : Thread × Event}
    (h : s.step label = some s') (hf : label.2.faultless = true) :
    ∃ ops, s'.toLog = s.toLog.run ops := by
  rcases step_log h with hlog | ⟨e, hseq, hfits, hlog⟩ | ⟨fault, hevent, hlog⟩
  · exact ⟨[], hlog⟩
  · refine ⟨[.append e.key e.value], ?_⟩
    have hnext : (s.lastSeq + 1) % u64Limit = e.seq := by
      rw [← hseq, Nat.mod_eq_of_lt hfits.1]
    change s'.toLog = s.toLog.apply (.append e.key e.value)
    rw [hlog, Log.apply, hnext, encode_of_fits s.buf hfits.2]
  · obtain rfl : fault = none := by
      rw [hevent] at hf
      exact Option.isNone_iff_eq_none.mp hf
    exact ⟨[.write], hlog⟩

/-- **The threads of a log** that meet no fault do to its records what some session does. -/
theorem Shared.exists_ops_of_reachable {policy : SyncPolicy} {r : Recovered} {s : Shared}
    (h : Reachable Shared.step (fun _ label => label.2.faultless = true)
      (· = Shared.new policy r) s) :
    ∃ ops, s.toLog = (Shared.new policy r).toLog.run ops := by
  induction h with
  | start hs => exact ⟨[], by rw [hs]; rfl⟩
  | step _ hf hstep ih =>
    obtain ⟨ops, hops⟩ := ih
    obtain ⟨ops', hops'⟩ := exists_ops_of_step hstep hf
    refine ⟨ops ++ ops', ?_⟩
    rw [hops', hops, Log.run, Log.run, Log.run, List.foldl_append]

/-! ### Restarts -/

/-- Opens the log, appends to it and closes it, some number of times.  Returns the file and the
records that were appended. -/
def restarts (number : ℕ) : Bytes → List (SyncPolicy × ℕ × List LogOp) →
    Except Error (Bytes × List Entry)
  | file, [] => .ok (file, [])
  | file, (policy, lastSeq, ops) :: rounds => do
    let r ← recover number (some file) lastSeq
    let l := (Shared.new policy r).toLog.run ops
    let (file, appended) ← restarts number l.close rounds
    .ok (file, l.appended ++ appended)

theorem restarts_cons {number lastSeq : ℕ} {file file' : Bytes} {r : Recovered}
    (hr : recover number (some file) lastSeq = .ok r) {policy : SyncPolicy} {ops : List LogOp}
    {rounds : List (SyncPolicy × ℕ × List LogOp)} {appended : List Entry}
    (hrest : restarts number ((Shared.new policy r).toLog.run ops).close rounds
      = .ok (file', appended)) :
    restarts number file ((policy, lastSeq, ops) :: rounds)
      = .ok (file', ((Shared.new policy r).toLog.run ops).appended ++ appended) := by
  rw [restarts, hr, ok_bind]
  dsimp only
  rw [hrest, ok_bind]

/-- The file a log that opens is left with is the log of the records it returned. -/
theorem file_of_recover {number lastSeq : ℕ} {file : Option Bytes} {r : Recovered}
    (h : recover number file lastSeq = .ok r) :
    (∀ e ∈ r.records, Fits e) ∧ r.file = fileHeader ++ frames r.records := by
  obtain ⟨hrecords, hintact, hcontents, -⟩ := spec_of_recover h
  refine ⟨by rw [hrecords]; exact contents_fits _, ?_⟩
  rw [hrecords, ← hcontents]
  exact hintact.eq_frames

/-- A log that was just opened has no record but the accepted appends of its session. -/
theorem appended_run_new (policy : SyncPolicy) (r : Recovered) (ops : List LogOp) :
    ((Shared.new policy r).toLog.run ops).appended.map (fun e => (e.key, e.value))
      = ops.filterMap LogOp.accepted := by
  rw [Log.appended_run]
  rfl

/-- Restarts keep what the log held, and add what was appended. -/
theorem restarts_frames (number : ℕ) {es : List Entry} (hes : ∀ e ∈ es, Fits e)
    (rounds : List (SyncPolicy × ℕ × List LogOp)) :
    ∃ appended, (∀ e ∈ es ++ appended, Fits e)
      ∧ appended.map (fun e => (e.key, e.value))
        = (rounds.flatMap fun round => round.2.2).filterMap LogOp.accepted
      ∧ restarts number (fileHeader ++ frames es) rounds
        = .ok (fileHeader ++ frames (es ++ appended), appended) := by
  induction rounds generalizing es with
  | nil =>
    refine ⟨[], by rwa [List.append_nil], rfl, ?_⟩
    rw [List.append_nil]
    rfl
  | cons round rounds ih =>
    obtain ⟨policy, lastSeq, ops⟩ := round
    obtain ⟨seq, hrecover⟩ := recover_frames number lastSeq hes readFrame_nil
    rw [List.append_nil] at hrecover
    have hkeeps := (Log.Keeps.new policy (file_of_recover hrecover).1 rfl).run ops
    obtain ⟨appended, hfits, happended, hrest⟩ := ih hkeeps.fits
    rw [← hkeeps.close] at hrest
    rw [List.append_assoc] at hfits hrest
    refine ⟨_, hfits, ?_, restarts_cons hrecover hrest⟩
    rw [List.map_append, appended_run_new, happended, List.flatMap_cons, List.filterMap_append]

/-- **Recovery is a clean restart**, whatever the log file held.  If it opens, the replay has ended
and stayed inside the file, the file is the log of the records returned, recovering it again returns
them and writes nothing, and what later sessions append, their accepted appends in order, is
returned behind them. -/
theorem recover_restart {number lastSeq : ℕ} {bytes : Bytes} {r : Recovered}
    (h : recover number (some bytes) lastSeq = .ok r) :
    (∃ replay, openFile number (some bytes) = .ok replay
      ∧ Yields Replay.next replay r.records
      ∧ ∀ n, InRange bytes ((fun replay => replay.next.2)^[n] replay))
    ∧ ((∀ e ∈ r.records, (encode [] e.seq e.key e.value).1 = .ok ())
      ∧ r.file = fileHeader ++ r.records.flatMap encoding)
    ∧ (∀ lastSeq', ∃ seq, recover number (some r.file) lastSeq' = .ok ⟨r.file, seq, r.records⟩
      ∧ recoverSteps number (some r.file) = [])
    ∧ ∀ (policy : SyncPolicy) (ops : List LogOp) (rounds : List (SyncPolicy × ℕ × List LogOp)),
      ∃ file appended,
        restarts number bytes ((policy, lastSeq, ops) :: rounds) = .ok (file, appended)
          ∧ appended.map (fun e => (e.key, e.value))
            = (ops ++ rounds.flatMap fun round => round.2.2).filterMap LogOp.accepted
          ∧ ∀ lastSeq', ∃ r', recover number (some file) lastSeq' = .ok r'
            ∧ r'.records = r.records ++ appended := by
  obtain ⟨hfits, hfile⟩ := file_of_recover h
  refine ⟨?_, ⟨fun e he => ?_, ?_⟩, fun lastSeq' => ?_, fun policy ops rounds => ?_⟩
  · obtain ⟨replay, hopen, hreplay⟩ := openFile_records number (readable_of_recover h)
    have hrange := inRange_of_openFile hopen
    refine ⟨replay, hopen, ?_, fun n => ?_⟩
    · have hrecords : r.records = replay.records.1 := (spec_of_recover h).1.trans hreplay.symm
      rw [hrecords]
      exact yields_records hrange
    · induction n with
      | zero => exact hrange
      | succ n ih =>
        rw [Function.iterate_succ_apply']
        exact ih.next
  · rw [encode_of_fits [] (hfits e he).2]
  · rw [hfile, encodings_eq hfits]
  · obtain ⟨seq, hagain⟩ := recover_frames number lastSeq' hfits readFrame_nil
    have hsteps := recoverSteps_header number (List.prefix_append fileHeader (frames r.records))
    have hcontents := contents_frames hfits readFrame_nil
    rw [List.append_nil] at hagain hcontents
    rw [hcontents, if_pos rfl] at hsteps
    rw [hfile]
    exact ⟨seq, hagain, hsteps⟩
  · have hkeeps := (Log.Keeps.new policy hfits hfile).run ops
    obtain ⟨appended, hall, happended, hrest⟩ := restarts_frames number hkeeps.fits rounds
    rw [← hkeeps.close] at hrest
    refine ⟨_, _, restarts_cons h hrest, ?_, fun lastSeq' => ?_⟩
    · rw [List.map_append, appended_run_new, happended, List.filterMap_append]
    obtain ⟨seq, hagain⟩ := recover_frames number lastSeq' hall readFrame_nil
    rw [List.append_nil] at hagain
    exact ⟨_, hagain, List.append_assoc _ _ _⟩

/-- A log whose second record is torn. -/
def tornLog : Bytes := fileHeader ++ encoding ⟨[1], 1, some [7]⟩ ++ [1, 2, 3]

/-- The torn record is cut off, and what two sessions append is returned behind the first. -/
theorem recover_restart_torn :
    ∃ r, recover 1 (some tornLog) 0 = .ok r
      ∧ r.file = fileHeader ++ r.records.flatMap encoding
      ∧ ∃ file appended,
        restarts 1 tornLog [(.always, 0, [.append [2] (some [8]), .write, .append [3] none]),
          (.group, 0, [.append [1] none])] = .ok (file, appended)
        ∧ appended.map (fun e => (e.key, e.value)) = [([2], some [8]), ([3], none), ([1], none)]
        ∧ ∃ r', recover 1 (some file) 0 = .ok r' ∧ r'.records = r.records ++ appended := by
  have hok : (recover 1 (some tornLog) 0).toBool = true := by decide +kernel
  cases h : recover 1 (some tornLog) 0 with
  | error err =>
    rw [h] at hok
    cases hok
  | ok r =>
    obtain ⟨-, ⟨-, hfile⟩, -, hsessions⟩ := recover_restart h
    obtain ⟨file, appended, hrestarts, happended, hagain⟩ := hsessions .always
      [.append [2] (some [8]), .write, .append [3] none] [(.group, 0, [.append [1] none])]
    refine ⟨r, rfl, hfile, file, appended, hrestarts, ?_, hagain 0⟩
    rw [happended]
    decide +kernel

end Wal

end Lsmkv
