import Lsmkv.Wal.Record

/-!
# Sequential replay of a log file (`wal/reader.rs`)

A `Replay` walks the bytes behind the file header and stops at the first record that is not
complete and intact.  What it yields is determined by `scan`, which splits the bytes into the
records it reads and the tail it refuses: `scan bytes = (es, tail)` says that `bytes` is the frames
of `es` followed by a `tail` no frame can be read from (`scan_spec`), and the two determine each
other (`scan_frames`).

A log that was cut in the middle of a record reads as the whole records before the cut
(`exists_take_frames`): the cut shows in the length of what is left (`CutShort`), so the checksum is
not what notices it.
-/

namespace Lsmkv

namespace Wal

/-- `MAGIC`, the bytes of `LSMKVWAL`. -/
def magic : Bytes := [0x4C, 0x53, 0x4D, 0x4B, 0x56, 0x57, 0x41, 0x4C]

def formatVersion : ℕ := 2

def fileHeaderLen : ℕ := 12

/-- The header a new log file is given. -/
def fileHeader : Bytes := magic ++ toLeBytes 4 formatVersion

end Wal

open Wal Record

/-- Records held by a log file.  `reader` is what is left to read, `none` once iteration is over. -/
structure Replay where
  reader : Option Bytes
  fileLen : ℕ
  pos : ℕ
  tornAt : Option ℕ
  deriving DecidableEq, Repr

namespace Replay

/-- `Replay::empty`. -/
def empty (tornAt : Option ℕ) : Replay := ⟨none, 0, 0, tornAt⟩

/-- Opens a log file for replay.  A file that does not exist replays as empty. -/
def openFile (number : ℕ) (file : Option Bytes) : Except Error Replay :=
  match file with
  | none => .ok (empty none)
  | some bytes =>
    if bytes.length = 0 then .ok (empty none)
    else if bytes.length < fileHeaderLen then .ok (empty (some 0))
    else if bytes.take magic.length ≠ magic then .error (.corrupt (.log number) "not a log file")
    else
      let version := u32At bytes magic.length
      if version ≠ formatVersion then
        .error (.corrupt (.log number)
          ("format version " ++ toString version ++ ", expected " ++ toString formatVersion))
      else .ok ⟨some (bytes.drop fileHeaderLen), bytes.length, fileHeaderLen, none⟩

/-- The record at the front of `rest`, and what stands behind it.  `none` when the bytes left do
not hold a complete and intact one. -/
def readFrame (rest : Bytes) : Option (Entry × Bytes) :=
  let remaining := rest.length
  if remaining < headerLen then none
  else
    let header := rest.take headerLen
    let crc := u32At header 0
    let len := u32At header 4
    if remaining - headerLen < len then none
    else
      let body := rest.drop headerLen
      let bytes := body.take len
      if crc32Parts (header.drop 4) bytes ≠ crc then none
      else (decode bytes).map fun record => (record, body.drop len)

/-- `Replay::read_record`: the next record, or `none` at the end of the file or at a tear, which
is marked. -/
def readRecord (replay : Replay) (rest : Bytes) : Option Entry × Replay :=
  if rest.length = 0 then (none, { replay with reader := none })
  else
    match readFrame rest with
    | none => (none, { replay with reader := none, tornAt := some replay.pos })
    | some (record, left) =>
      -- Past the header and the payload.
      (some record,
        { replay with reader := some left, pos := replay.pos + (rest.length - left.length) })

/-- `Iterator::next`. -/
def next (replay : Replay) : Option Entry × Replay :=
  match replay.reader with
  | none => (none, replay)
  | some rest => replay.readRecord rest

/-- Iterates to the end.  Every record takes at least its header off the file, so as many turns
as there are bytes are enough. -/
def collect : ℕ → Replay → List Entry × Replay
  | 0, replay => ([], replay)
  | fuel + 1, replay =>
    match replay.next with
    | (none, replay) => ([], replay)
    | (some record, replay) =>
      let (records, replay) := collect fuel replay
      (record :: records, replay)

/-- The records of an opened log, and the replay as it is left. -/
def records (replay : Replay) : List Entry × Replay := collect (replay.fileLen + 1) replay

end Replay

/-! ### Reading one frame -/

namespace Replay

theorem readFrame_frame {e : Entry} (h : Fits e) (rest : Bytes) :
    readFrame (frame e ++ rest) = some (e, rest) := by
  have hlen := length_frame e
  have hcrcLen := length_toLeBytes 4 (crc32 (checked e))
  have hlt : crc32 (checked e) < 256 ^ 4 := lt_of_lt_of_le (crc32_lt _) (by norm_num [u32Limit])
  have hplt : (payload e).length < 256 ^ 4 := lt_of_lt_of_le h.2 (by norm_num [u32Limit])
  have hheader : (frame e ++ rest).take headerLen
      = toLeBytes 4 (crc32 (checked e)) ++ toLeBytes 4 (payload e).length := by
    rw [frame, checked, ← List.append_assoc (toLeBytes 4 _), List.append_assoc,
      List.take_left' (by simp [headerLen])]
  have hbody : (frame e ++ rest).drop headerLen = payload e ++ rest := by
    rw [frame, checked, ← List.append_assoc (toLeBytes 4 _), List.append_assoc,
      List.drop_left' (by simp [headerLen])]
  have hcrc : u32At (toLeBytes 4 (crc32 (checked e)) ++ toLeBytes 4 (payload e).length) 0
      = crc32 (checked e) := by
    rw [u32At, List.drop_zero, List.take_left' hcrcLen, ofLeBytes_toLeBytes hlt]
  have hdrop4 : (toLeBytes 4 (crc32 (checked e)) ++ toLeBytes 4 (payload e).length).drop 4
      = toLeBytes 4 (payload e).length := List.drop_left' hcrcLen
  have hlenField : u32At (toLeBytes 4 (crc32 (checked e)) ++ toLeBytes 4 (payload e).length) 4
      = (payload e).length := by
    rw [u32At, hdrop4, List.take_of_length_le (by simp), ofLeBytes_toLeBytes hplt]
  unfold readFrame
  simp only [hheader, hbody, hcrc, hlenField, hdrop4, List.length_append, hlen]
  rw [if_neg (by omega), if_neg (by omega), List.take_left' rfl, List.drop_left' rfl,
    crc32Parts_eq, ← checked, if_neg (not_not.mpr rfl), decode_payload h]
  rfl

/-- What is left is shorter than the header of a record, or than the record its header announces.
Both are noticed before the checksum is looked at. -/
def CutShort (rest : Bytes) : Prop :=
  rest.length < headerLen ∨ rest.length - headerLen < u32At (rest.take headerLen) 4

theorem readFrame_of_cutShort {rest : Bytes} (h : CutShort rest) : readFrame rest = none := by
  unfold readFrame
  dsimp only
  rcases h with hshort | hrest
  · rw [if_pos hshort]
  · rw [if_pos hrest, ite_self]

/-- **A cut is noticed by length**: fewer bytes than the frame has are cut short. -/
theorem cutShort_take {e : Entry} (h : Fits e) {n : ℕ} (hn : n < (frame e).length) :
    CutShort ((frame e).take n) := by
  have hlen := length_frame e
  have htake : ((frame e).take n).length = n := List.length_take_of_le hn.le
  by_cases hshort : n < headerLen
  · exact Or.inl (htake.trans_lt hshort)
  · right
    -- the length field was read whole, and says more than what is left
    have hplt : (payload e).length < 256 ^ 4 := lt_of_lt_of_le h.2 (by norm_num [u32Limit])
    have hheader : ((frame e).take n).take headerLen
        = toLeBytes 4 (crc32 (checked e)) ++ toLeBytes 4 (payload e).length := by
      rw [List.take_take, Nat.min_eq_left (by omega), frame, checked,
        ← List.append_assoc (toLeBytes 4 _), List.take_left' (by simp [headerLen])]
    rw [htake, hheader, u32At, List.drop_left' (length_toLeBytes 4 _),
      List.take_of_length_le (by simp), ofLeBytes_toLeBytes hplt]
    omega

theorem readFrame_take {e : Entry} (h : Fits e) {n : ℕ} (hn : n < (frame e).length) :
    readFrame ((frame e).take n) = none := readFrame_of_cutShort (cutShort_take h hn)

/-- What is read is a frame: the bytes taken off the front are the encoding of the record. -/
theorem readFrame_eq_some {bytes rest : Bytes} {e : Entry} (h : readFrame bytes = some (e, rest)) :
    bytes = frame e ++ rest ∧ Fits e := by
  unfold readFrame at h
  dsimp only at h
  split_ifs at h with hshort hrest hcrc
  rw [Option.map_eq_some_iff] at h
  obtain ⟨e', hdec, heq⟩ := h
  obtain ⟨rfl, rfl⟩ := Prod.mk.inj heq
  rw [not_lt] at hshort hrest
  rw [not_not] at hcrc
  set header := bytes.take headerLen with hheader
  set len := u32At header 4 with hlenDef
  have hheaderLen : header.length = 8 := List.length_take_of_le hshort
  have hfield : (header.drop 4).length = 4 := by rw [List.length_drop, hheaderLen]
  have hbodyLen : ((bytes.drop headerLen).take len).length = len :=
    List.length_take_of_le (by rw [List.length_drop]; omega)
  obtain ⟨hpayload, hseq, -⟩ := decode_eq_some hdec
  -- The length field and the checksum are read back as they stand.
  have hlenBytes : toLeBytes 4 len = header.drop 4 := by
    have hback := toLeBytes_ofLeBytes (header.drop 4)
    rw [hfield] at hback
    rw [hlenDef, u32At, List.take_of_length_le hfield.le, hback]
  have hlenLt : len < u32Limit := by
    have := ofLeBytes_lt (header.drop 4)
    rw [hfield] at this
    rw [hlenDef, u32At, List.take_of_length_le hfield.le]
    exact lt_of_lt_of_le this (by norm_num [u32Limit])
  have hpayLen : (payload e').length = len := by rw [← hpayload, hbodyLen]
  have hchecked : checked e' = header.drop 4 ++ payload e' := by rw [checked, hpayLen, hlenBytes]
  have hcrcBytes : toLeBytes 4 (crc32 (checked e')) = header.take 4 := by
    have hback := toLeBytes_ofLeBytes (header.take 4)
    rw [List.length_take_of_le (by omega : 4 ≤ header.length)] at hback
    rw [hchecked, ← hpayload, ← crc32Parts_eq, hcrc, u32At, List.drop_zero, hback]
  refine ⟨?_, hseq, by rw [hpayLen]; exact hlenLt⟩
  rw [frame, hcrcBytes, hchecked, ← List.append_assoc (header.take 4), List.take_append_drop,
    ← hpayload, List.append_assoc, List.take_append_drop, hheader, List.take_append_drop]

theorem readFrame_nil : readFrame [] = none := rfl

/-! ### Reading a run of frames -/

/-- The records read from the front of `bytes`, and the tail that is refused. -/
def scan : ℕ → Bytes → List Entry × Bytes
  | 0, bytes => ([], bytes)
  | fuel + 1, bytes =>
    match readFrame bytes with
    | none => ([], bytes)
    | some (record, rest) =>
      let (records, tail) := scan fuel rest
      (record :: records, tail)

/-- The frames of a list of records, back to back. -/
def frames (es : List Entry) : Bytes := es.flatMap frame

@[simp]
theorem frames_nil : frames [] = [] := rfl

@[simp]
theorem frames_cons (e : Entry) (es : List Entry) : frames (e :: es) = frame e ++ frames es := rfl

@[simp]
theorem frames_append (es fs : List Entry) : frames (es ++ fs) = frames es ++ frames fs :=
  List.flatMap_append

theorem length_le_length_frames (es : List Entry) : es.length ≤ (frames es).length := by
  induction es with
  | nil => simp
  | cons e es ih =>
    have := length_frame e
    rw [frames_cons, List.length_append, List.length_cons, this, headerLen]
    omega

/-- Frames followed by bytes no frame can be read from scan as just that. -/
theorem scan_frames {es : List Entry} (hes : ∀ e ∈ es, Fits e) {tail : Bytes}
    (htail : readFrame tail = none) {fuel : ℕ} (hfuel : es.length < fuel) :
    scan fuel (frames es ++ tail) = (es, tail) := by
  induction es generalizing fuel with
  | nil =>
    obtain ⟨fuel, rfl⟩ : ∃ m, fuel = m + 1 := ⟨fuel - 1, by simp at hfuel; omega⟩
    simp [scan, htail]
  | cons e es ih =>
    rw [List.length_cons] at hfuel
    obtain ⟨fuel, rfl⟩ : ∃ m, fuel = m + 1 := ⟨fuel - 1, by omega⟩
    rw [scan, frames_cons, List.append_assoc, readFrame_frame (hes e (by simp))]
    simp only [ih (fun f hf => hes f (by simp [hf])) (by omega : es.length < fuel)]

/-- The scan splits the bytes into the frames it reads and the tail it refuses. -/
theorem scan_spec {fuel : ℕ} {bytes : Bytes} (hfuel : bytes.length < fuel) :
    bytes = frames (scan fuel bytes).1 ++ (scan fuel bytes).2
      ∧ (∀ e ∈ (scan fuel bytes).1, Fits e) ∧ readFrame (scan fuel bytes).2 = none := by
  induction fuel generalizing bytes with
  | zero => omega
  | succ fuel ih =>
    rw [scan]
    cases hread : readFrame bytes with
    | none => exact ⟨rfl, by simp, hread⟩
    | some p =>
      obtain ⟨e, rest⟩ := p
      obtain ⟨rfl, hfit⟩ := readFrame_eq_some hread
      have hlen := length_frame e
      rw [List.length_append, hlen, headerLen] at hfuel
      obtain ⟨hrest, hfits, hnone⟩ := @ih rest (by omega)
      refine ⟨?_, ?_, hnone⟩
      · dsimp only
        rw [frames_cons, List.append_assoc, ← hrest]
      · intro f hf
        rcases List.mem_cons.mp hf with rfl | hf
        · exact hfit
        · exact hfits f hf

/-- **Frames cut anywhere** are the whole frames before the cut, and a rest that is cut short. -/
theorem exists_take_frames {es : List Entry} (hes : ∀ e ∈ es, Fits e) (n : ℕ) :
    ∃ j tail, (frames es).take n = frames (es.take j) ++ tail ∧ CutShort tail
      ∧ ∀ i ≤ es.length, i ≤ j ↔ (frames (es.take i)).length ≤ n := by
  induction es generalizing n with
  | nil => exact ⟨0, [], by simp, Or.inl (by decide), by simp⟩
  | cons e es ih =>
    by_cases hn : n < (frame e).length
    · refine ⟨0, (frame e).take n, ?_, cutShort_take (hes e (by simp)) hn, fun i _ => ?_⟩
      · rw [frames_cons, List.take_append_of_le_length hn.le]
        simp
      · cases i with
        | zero => simp
        | succ i =>
          rw [List.take_succ_cons, frames_cons, List.length_append]
          omega
    · obtain ⟨j, tail, htake, hcut, hmax⟩ :=
        ih (fun f hf => hes f (by simp [hf])) (n - (frame e).length)
      refine ⟨j + 1, tail, ?_, hcut, fun i hi => ?_⟩
      · rw [frames_cons, List.take_append, List.take_of_length_le (by omega), htake,
          List.take_succ_cons, frames_cons, List.append_assoc]
      · cases i with
        | zero => simp
        | succ i =>
          have := hmax i (by simpa using hi)
          rw [List.take_succ_cons, frames_cons, List.length_append]
          omega

end Replay

end Lsmkv
