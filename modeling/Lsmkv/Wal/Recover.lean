import Lsmkv.Wal.Reader

/-!
# Opening a log (`Wal::recover`, `Wal::create`)

`recover` replays what a log file holds, discards a torn tail and leaves a file that later appends
can follow: the header and the frames of the records it returned.  A file too short to hold its
header is rewritten as a new one.

`Wal.contents bytes` is the list of records a log file holds, whatever stands behind them, and
`Wal.Intact bytes` says that nothing does.  `recover_spec` is the one fact the rest of the
development uses about opening a log.
-/

namespace Lsmkv.Wal

open Record Replay

/-- What `Wal::recover` hands back: the content the file is left with, the last sequence number
used, and the records replayed. -/
structure Recovered where
  file : Bytes
  lastSeq : ℕ
  records : List Entry
  deriving DecidableEq, Repr

/-- Opens the log `number`, replaying what it holds.  `file` is the content found under its name,
`none` if there is no such file. -/
def recover (number : ℕ) (file : Option Bytes) (lastSeq : ℕ) : Except Error Recovered := do
  let replay ← Replay.openFile number file
  let (records, replay) := replay.records
  let validLen := replay.pos
  let torn := replay.tornAt.isSome
  let bytes := file.getD []
  let file :=
    if validLen = 0 then fileHeader
    else if torn then bytes.take validLen
    else bytes
  let lastSeq :=
    match (records.map Version.seq).max? with
    | none => lastSeq
    | some highest => max highest lastSeq
  .ok ⟨file, lastSeq, records⟩

/-- The contents the file goes through while `recover` runs: truncation, and the header arriving
byte by byte when it is written anew. -/
def recoverSteps (number : ℕ) (file : Option Bytes) : List Bytes :=
  match Replay.openFile number file with
  | .error _ => []
  | .ok replay =>
    let replay := replay.records.2
    if replay.pos = 0 then (List.range (fileHeaderLen + 1)).map fun n => fileHeader.take n
    else if replay.tornAt.isSome then [(file.getD []).take replay.pos]
    else []

/-- The records a log file holds.  A file too short for its header holds none. -/
def contents (bytes : Bytes) : List Entry :=
  if bytes.length < fileHeaderLen then []
  else (scan (bytes.length + 1) (bytes.drop fileHeaderLen)).1

/-- The file is its header and whole records. -/
def Intact (bytes : Bytes) : Prop := ∃ es, (∀ e ∈ es, Fits e) ∧ bytes = fileHeader ++ frames es

/-- The file can be replayed: it is too short for a header, or has the right one. -/
def Readable (bytes : Bytes) : Prop := bytes.length < fileHeaderLen ∨ fileHeader <+: bytes

theorem length_fileHeader : fileHeader.length = fileHeaderLen := rfl

/-! ### What a log file holds -/

/-- Frames behind a header, followed by bytes no frame can be read from. -/
theorem contents_frames {es : List Entry} (hes : ∀ e ∈ es, Fits e) {tail : Bytes}
    (htail : readFrame tail = none) : contents (fileHeader ++ (frames es ++ tail)) = es := by
  have hlen := length_le_length_frames es
  unfold contents
  rw [if_neg (by simp [length_fileHeader]), List.drop_left' length_fileHeader,
    scan_frames hes htail (by simp only [List.length_append]; omega)]

theorem contents_short {bytes : Bytes} (h : bytes.length < fileHeaderLen) : contents bytes = [] :=
  if_pos h

theorem Intact.eq_frames {bytes : Bytes} (h : Intact bytes) :
    bytes = fileHeader ++ frames (contents bytes) := by
  obtain ⟨es, hes, rfl⟩ := h
  have hcontents := contents_frames hes readFrame_nil
  rw [List.append_nil] at hcontents
  rw [hcontents]

/-- The records of a log file fit. -/
theorem contents_fits (bytes : Bytes) : ∀ e ∈ contents bytes, Fits e := by
  unfold contents
  split_ifs with h
  · simp
  · exact (scan_spec (by rw [List.length_drop]; omega)).2.1

/-- A file with the right header is the header, the frames of its records and a tail that is
refused. -/
theorem exists_tail {bytes : Bytes} (h : fileHeader <+: bytes) :
    ∃ tail, bytes = fileHeader ++ (frames (contents bytes) ++ tail) ∧ readFrame tail = none := by
  obtain ⟨rest, rfl⟩ := h
  have hfuel : rest.length < (fileHeader ++ rest).length + 1 := by
    rw [List.length_append]
    omega
  obtain ⟨hsplit, _, hnone⟩ := scan_spec hfuel
  refine ⟨_, ?_, hnone⟩
  have hcontents : contents (fileHeader ++ rest)
      = (scan ((fileHeader ++ rest).length + 1) rest).1 := by
    rw [contents, if_neg (by simp [length_fileHeader]), List.drop_left' length_fileHeader]
  rw [hcontents, ← hsplit]

/-! ### Appending -/

/-- Whole records appended to an intact log are read behind the ones it held. -/
theorem Intact.append {bytes : Bytes} (h : Intact bytes) {es : List Entry}
    (hes : ∀ e ∈ es, Fits e) :
    Intact (bytes ++ frames es) ∧ contents (bytes ++ frames es) = contents bytes ++ es := by
  have hold := contents_fits bytes
  have hall : ∀ e ∈ contents bytes ++ es, Fits e := by
    intro e he
    rcases List.mem_append.mp he with he | he
    · exact hold e he
    · exact hes e he
  have heq : bytes ++ frames es = fileHeader ++ (frames (contents bytes ++ es) ++ []) := by
    conv_lhs => rw [h.eq_frames]
    rw [List.append_nil, frames_append, List.append_assoc]
  refine ⟨⟨_, hall, by rw [heq, List.append_nil]⟩, ?_⟩
  rw [heq, contents_frames hall rfl]

/-- A write cut short leaves whole records of the buffer, and bytes that are refused. -/
theorem Intact.append_take {bytes : Bytes} (h : Intact bytes) {es : List Entry}
    (hes : ∀ e ∈ es, Fits e) (n : ℕ) :
    ∃ j, contents (bytes ++ (frames es).take n) = contents bytes ++ es.take j := by
  have hold := contents_fits bytes
  obtain ⟨j, tail, htake, hcut, -⟩ := exists_take_frames hes n
  have hall : ∀ e ∈ contents bytes ++ es.take j, Fits e := by
    intro e he
    rcases List.mem_append.mp he with he | he
    · exact hold e he
    · exact hes e (List.mem_of_mem_take he)
  refine ⟨j, ?_⟩
  have heq : bytes ++ (frames es).take n
      = fileHeader ++ (frames (contents bytes ++ es.take j) ++ tail) := by
    conv_lhs => rw [h.eq_frames, htake]
    simp only [frames_append, List.append_assoc]
  rw [heq, contents_frames hall (readFrame_of_cutShort hcut)]

theorem Readable.append {bytes : Bytes} (h : fileHeader <+: bytes) (more : Bytes) :
    Readable (bytes ++ more) := Or.inr (h.trans (List.prefix_append _ _))

theorem readable_take_fileHeader (n : ℕ) : Readable (fileHeader.take n) := by
  by_cases hn : n < fileHeaderLen
  · exact Or.inl (by rw [List.length_take, length_fileHeader]; omega)
  · rw [List.take_of_length_le (by rw [length_fileHeader]; omega)]
    exact Or.inr List.prefix_rfl

/-- Whatever part of the header of a new log was written, the log holds no record. -/
theorem contents_take_fileHeader (n : ℕ) : contents (fileHeader.take n) = [] := by
  by_cases hn : n < fileHeaderLen
  · exact contents_short (by rw [List.length_take, length_fileHeader]; omega)
  · rw [List.take_of_length_le (by rw [length_fileHeader]; omega)]
    exact contents_frames (by simp : ∀ e ∈ ([] : List Entry), Fits e) readFrame_nil

theorem intact_fileHeader : Intact fileHeader := ⟨[], by simp, rfl⟩

/-! ### The replay of a log file -/

theorem collect_eq {fuel : ℕ} {rest : Bytes} (hfuel : rest.length < fuel) (fileLen pos : ℕ) :
    collect fuel ⟨some rest, fileLen, pos, none⟩
      = ((scan fuel rest).1, ⟨none, fileLen, pos + (frames (scan fuel rest).1).length,
          if (scan fuel rest).2.length = 0 then none
          else some (pos + (frames (scan fuel rest).1).length)⟩) := by
  induction fuel generalizing rest pos with
  | zero => omega
  | succ fuel ih =>
    rw [collect, next, scan]
    dsimp only
    rw [readRecord]
    by_cases hempty : rest.length = 0
    · rw [List.length_eq_zero_iff] at hempty
      subst hempty
      rfl
    · rw [if_neg hempty]
      cases hread : readFrame rest with
      | none => simp [hempty]
      | some p =>
        obtain ⟨e, left⟩ := p
        obtain ⟨rfl, -⟩ := readFrame_eq_some hread
        have hlen := length_frame e
        have hleft : left.length < fuel := by
          rw [List.length_append, hlen, headerLen] at hfuel
          omega
        have hpos : (frame e ++ left).length - left.length = (frame e).length := by
          rw [List.length_append, Nat.add_sub_cancel]
        dsimp only
        rw [hpos, ih hleft, frames_cons, List.length_append, Nat.add_assoc]

theorem openFile_header (number : ℕ) (rest : Bytes) :
    openFile number (some (fileHeader ++ rest))
      = .ok ⟨some rest, (fileHeader ++ rest).length, fileHeaderLen, none⟩ := by
  have hlen : (fileHeader ++ rest).length = 12 + rest.length := List.length_append
  have hmagic : (fileHeader ++ rest).take magic.length = magic := by
    rw [fileHeader, List.append_assoc, List.take_left' rfl]
  have hversion : u32At (fileHeader ++ rest) magic.length = formatVersion := by
    rw [u32At, fileHeader, List.append_assoc, List.drop_left' rfl,
      List.take_left' (length_toLeBytes 4 formatVersion)]
    rfl
  have hdrop : (fileHeader ++ rest).drop fileHeaderLen = rest := List.drop_left' rfl
  simp only [openFile]
  rw [if_neg (by omega), if_neg (by rw [fileHeaderLen]; omega), if_neg (not_not.mpr hmagic),
    if_neg (not_not.mpr hversion), hdrop]

/-- A file the replay accepts is too short for a header or starts with it. -/
theorem readable_of_openFile {number : ℕ} {bytes : Bytes} {replay : Replay}
    (h : openFile number (some bytes) = .ok replay) : Readable bytes := by
  simp only [openFile] at h
  split_ifs at h with hempty hshort hmagic hversion
  · exact Or.inl (by rw [hempty]; decide)
  · exact Or.inl hshort
  · right
    rw [not_not] at hmagic hversion
    have hfield : ((bytes.drop magic.length).take 4).length = 4 := by
      rw [List.length_take, List.length_drop]
      rw [fileHeaderLen] at hshort
      simp only [magic, List.length_cons, List.length_nil]
      omega
    have hback := toLeBytes_ofLeBytes ((bytes.drop magic.length).take 4)
    rw [hfield, ← u32At, hversion] at hback
    rw [List.prefix_iff_eq_take, length_fileHeader, fileHeader, hback,
      show fileHeaderLen = magic.length + 4 from rfl, List.take_add, hmagic]

/-! ### `recover` -/

/-- A log too short for its header is rewritten as a new one. -/
theorem recover_short (number lastSeq : ℕ) {file : Option Bytes}
    (h : (file.getD []).length < fileHeaderLen) :
    recover number file lastSeq = .ok ⟨fileHeader, lastSeq, []⟩ := by
  cases file with
  | none => rfl
  | some bytes =>
    rw [Option.getD_some] at h
    by_cases hempty : bytes.length = 0
    · simp [recover, openFile, hempty, Replay.records, collect, next, Replay.empty,
        bind, Except.bind]
    · simp [recover, openFile, hempty, h, Replay.records, collect, next, Replay.empty, bind,
        Except.bind]

/-- The replay of a log with its header reads the whole records and finds what is behind them
torn. -/
theorem records_header (number : ℕ) {bytes : Bytes} (h : fileHeader <+: bytes) :
    ∃ tail replay, bytes = fileHeader ++ frames (contents bytes) ++ tail
      ∧ openFile number (some bytes) = .ok replay
      ∧ replay.records = (contents bytes, ⟨none, bytes.length,
          (fileHeader ++ frames (contents bytes)).length, if tail = [] then none
            else some (fileHeader ++ frames (contents bytes)).length⟩) := by
  obtain ⟨tail, hsplit, hnone⟩ := exists_tail h
  have hfits := contents_fits bytes
  have hlenFrames := length_le_length_frames (contents bytes)
  generalize contents bytes = es at *
  subst hsplit
  have hfuel : (frames es ++ tail).length < (fileHeader ++ (frames es ++ tail)).length + 1 :=
    Nat.lt_succ_of_le (List.suffix_append _ _).length_le
  have hscan : scan ((fileHeader ++ (frames es ++ tail)).length + 1) (frames es ++ tail)
      = (es, tail) := by
    refine scan_frames hfits hnone ?_
    simp only [List.length_append]
    omega
  have hcollect := collect_eq hfuel (fileHeader ++ (frames es ++ tail)).length fileHeaderLen
  rw [hscan] at hcollect
  refine ⟨tail, _, (List.append_assoc _ _ _).symm, openFile_header number _, ?_⟩
  have hlen : (fileHeader ++ frames es).length = fileHeaderLen + (frames es).length :=
    List.length_append
  rw [Replay.records, hcollect, hlen]
  simp only [List.length_eq_zero_iff]

/-- A log with its header is cut to its whole records. -/
theorem recover_header (number lastSeq : ℕ) {bytes : Bytes} (h : fileHeader <+: bytes) :
    recover number (some bytes) lastSeq
      = .ok ⟨fileHeader ++ frames (contents bytes),
          match ((contents bytes).map Version.seq).max? with
          | none => lastSeq
          | some highest => max highest lastSeq, contents bytes⟩ := by
  obtain ⟨tail, replay, hsplit, hopen, hrecords⟩ := records_header number h
  simp only [recover, hopen, ok_bind, hrecords, Option.getD_some]
  rw [if_neg (by rw [List.length_append, length_fileHeader, fileHeaderLen]; omega)]
  congr 2
  by_cases htail : tail = []
  · rw [htail, List.append_nil] at hsplit
    rwa [if_pos htail, Option.isSome_none, if_neg Bool.false_ne_true]
  · rw [if_neg htail, Option.isSome_some, if_pos rfl]
    exact (List.prefix_iff_eq_take.mp ⟨tail, hsplit.symm⟩).symm

theorem seq_le_of_mem_max {es : List Entry} {lastSeq : ℕ} {e : Entry} (he : e ∈ es) :
    e.seq ≤ (match (es.map Version.seq).max? with
      | none => lastSeq
      | some highest => max highest lastSeq) := by
  cases hmax : (es.map Version.seq).max? with
  | none =>
    rw [List.max?_eq_none_iff, List.map_eq_nil_iff] at hmax
    rw [hmax] at he
    cases he
  | some highest =>
    have := (List.max?_eq_some_iff.mp hmax).2 e.seq (List.mem_map_of_mem he)
    exact this.trans (le_max_left _ _)

/-- **Opening a readable log** gives the records it holds and leaves a file that is exactly those,
and the number it continues from is the highest in use. -/
theorem recover_spec (number lastSeq : ℕ) {file : Option Bytes} (h : Readable (file.getD [])) :
    ∃ r, recover number file lastSeq = .ok r ∧ r.records = contents (file.getD [])
      ∧ Intact r.file ∧ contents r.file = contents (file.getD [])
      ∧ lastSeq ≤ r.lastSeq ∧ (∀ e ∈ r.records, e.seq ≤ r.lastSeq)
      ∧ (r.lastSeq = lastSeq ∨ ∃ e ∈ r.records, e.seq = r.lastSeq) := by
  rcases h with hshort | hheader
  · refine ⟨_, recover_short number lastSeq hshort, ?_⟩
    rw [contents_short hshort]
    refine ⟨rfl, intact_fileHeader, contents_take_fileHeader fileHeaderLen, le_rfl, by simp,
      Or.inl rfl⟩
  · cases file with
    | none => exact absurd hheader.length_le (by simp [length_fileHeader, fileHeaderLen])
    | some bytes =>
      rw [Option.getD_some] at hheader ⊢
      have hfits := contents_fits bytes
      have hback := contents_frames hfits readFrame_nil
      rw [List.append_nil] at hback
      refine ⟨_, recover_header number lastSeq hheader, rfl, ⟨_, hfits, rfl⟩, hback, ?_, ?_, ?_⟩
      · dsimp only
        split
        · exact le_rfl
        · exact le_max_right _ _
      · intro e he
        exact seq_le_of_mem_max he
      · dsimp only
        split
        · exact Or.inl rfl
        · rename_i highest hmax
          rcases le_total highest lastSeq with hle | hle
          · exact Or.inl (max_eq_right hle)
          · right
            have hmem := (List.max?_eq_some_iff.mp hmax).1
            rw [List.mem_map] at hmem
            obtain ⟨e, he, hseq⟩ := hmem
            exact ⟨e, he, by rw [hseq, max_eq_left hle]⟩

/-- A log that opens was readable. -/
theorem readable_of_recover {number lastSeq : ℕ} {bytes : Bytes} {r : Recovered}
    (h : recover number (some bytes) lastSeq = .ok r) : Readable bytes := by
  cases hopen : openFile number (some bytes) with
  | error err => simp [recover, hopen, bind, Except.bind] at h
  | ok replay => exact readable_of_openFile hopen

/-- What a log that opens found, whatever the file was. -/
theorem spec_of_recover {number lastSeq : ℕ} {file : Option Bytes} {r : Recovered}
    (h : recover number file lastSeq = .ok r) : r.records = contents (file.getD [])
      ∧ Intact r.file ∧ contents r.file = contents (file.getD [])
      ∧ lastSeq ≤ r.lastSeq ∧ (∀ e ∈ r.records, e.seq ≤ r.lastSeq)
      ∧ (r.lastSeq = lastSeq ∨ ∃ e ∈ r.records, e.seq = r.lastSeq) := by
  have hreadable : Readable (file.getD []) := by
    cases file with
    | none => exact Or.inl (by decide)
    | some bytes => exact readable_of_recover h
  obtain ⟨r', hr', hspec⟩ := recover_spec number lastSeq hreadable
  rw [h] at hr'
  obtain rfl := Except.ok.inj hr'
  exact hspec

/-- The file a log that opens is left with is intact. -/
theorem intact_of_recover {number lastSeq : ℕ} {file : Option Bytes} {r : Recovered}
    (h : recover number file lastSeq = .ok r) : Intact r.file := (spec_of_recover h).2.1

/-! ### The contents a log goes through -/

theorem recoverSteps_short (number : ℕ) {file : Option Bytes}
    (h : (file.getD []).length < fileHeaderLen) :
    recoverSteps number file = (List.range (fileHeaderLen + 1)).map fun n => fileHeader.take n := by
  cases file with
  | none => rfl
  | some bytes =>
    rw [Option.getD_some] at h
    by_cases hempty : bytes.length = 0
    · simp [recoverSteps, openFile, hempty, Replay.records, collect, next, Replay.empty]
    · simp [recoverSteps, openFile, hempty, h, Replay.records, collect, next, Replay.empty]

theorem recoverSteps_header (number : ℕ) {bytes : Bytes} (h : fileHeader <+: bytes) :
    recoverSteps number (some bytes) = if bytes = fileHeader ++ frames (contents bytes) then []
      else [fileHeader ++ frames (contents bytes)] := by
  obtain ⟨tail, replay, hsplit, hopen, hrecords⟩ := records_header number h
  simp only [recoverSteps, hopen, hrecords, Option.getD_some]
  rw [if_neg (by rw [List.length_append, length_fileHeader, fileHeaderLen]; omega)]
  by_cases htail : tail = []
  · rw [htail, List.append_nil] at hsplit
    rw [if_pos htail, Option.isSome_none, if_neg Bool.false_ne_true, if_pos hsplit]
  · have hne : bytes ≠ fileHeader ++ frames (contents bytes) := fun heq =>
      htail (List.append_right_eq_self.mp (hsplit.symm.trans heq))
    rw [if_neg htail, Option.isSome_some, if_pos rfl, if_neg hne,
      ← List.prefix_iff_eq_take.mp ⟨tail, hsplit.symm⟩]

/-- **While a readable log is opened** its file holds the same records, and it ends up as the one
`recover` reports. -/
theorem recoverSteps_spec (number : ℕ) {file : Option Bytes} (h : Readable (file.getD [])) :
    (∀ bytes ∈ recoverSteps number file, Readable bytes ∧ contents bytes = contents (file.getD []))
      ∧ ∀ {lastSeq : ℕ} {r : Recovered}, recover number file lastSeq = .ok r →
        (recoverSteps number file).getLast? = some r.file
          ∨ recoverSteps number file = [] ∧ file = some r.file := by
  rcases h with hshort | hheader
  · rw [recoverSteps_short number hshort, contents_short hshort]
    refine ⟨fun bytes hbytes => ?_, fun {lastSeq r} hr => ?_⟩
    · obtain ⟨n, -, rfl⟩ := List.mem_map.mp hbytes
      exact ⟨readable_take_fileHeader n, contents_take_fileHeader n⟩
    · rw [recover_short number lastSeq hshort] at hr
      obtain rfl := Except.ok.inj hr
      exact Or.inl rfl
  · cases file with
    | none => exact absurd hheader.length_le (by simp [length_fileHeader, fileHeaderLen])
    | some bytes =>
      rw [Option.getD_some] at hheader ⊢
      rw [recoverSteps_header number hheader]
      have hback := contents_frames (contents_fits bytes) readFrame_nil
      rw [List.append_nil] at hback
      refine ⟨fun content hcontent => ?_, fun {lastSeq r} hr => ?_⟩
      · split_ifs at hcontent
        · cases hcontent
        · rw [List.mem_singleton.mp hcontent]
          exact ⟨Or.inr (List.prefix_append _ _), hback⟩
      · rw [recover_header number lastSeq hheader] at hr
        obtain rfl := Except.ok.inj hr
        split_ifs with heq
        · exact Or.inr ⟨rfl, congrArg some heq⟩
        · exact Or.inl rfl

/-- A readable log replays the records it holds. -/
theorem openFile_records (number : ℕ) {bytes : Bytes} (h : Readable bytes) :
    ∃ replay, openFile number (some bytes) = .ok replay ∧ replay.records.1 = contents bytes := by
  obtain ⟨r, hr, hrecords, -⟩ := @recover_spec number 0 (some bytes) h
  cases hopen : openFile number (some bytes) with
  | error err => simp [recover, hopen, bind, Except.bind] at hr
  | ok replay =>
    refine ⟨replay, rfl, ?_⟩
    simp only [recover, hopen, bind, Except.bind] at hr
    rw [← Except.ok.inj hr] at hrecords
    exact hrecords

end Lsmkv.Wal
