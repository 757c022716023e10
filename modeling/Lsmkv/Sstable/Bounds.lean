import Lsmkv.Bloom.Bounds
import Lsmkv.Sstable.Scan

/-!
# Reading a table file, with its panics

Offsets and lengths come from the file.  The functions here are those of `Lsmkv.Sstable.Reader`
with the panics of a debug build: an addition or a subtraction that overflows, an index or a slice
past the end.  They return what those without panics do, with one exception: the two sums of the
range check of `open` can overflow (`Footer.Overflows`), and then `open` panics in a debug build,
and takes the wrapped sums in a release build.  `openFile_safe_iff` says that this is all that can
go wrong in an `open`, and that lookups and scans of a table that was opened do not panic.
-/

namespace Lsmkv.Sst.Debug

/-- Reads an integer of some bytes at a known offset. -/
def fieldAt (width : ℕ) (bytes : Bytes) (offset : ℕ) : Checked ℕ := do
  let stop ← Checked.add u64Limit offset width
  let field ← Checked.slice bytes offset stop
  .ok (ofLeBytes field)

/-- Reads a `u32` at a known offset. -/
def u32At : Bytes → ℕ → Checked ℕ := fieldAt 4

/-- Reads a `u64` at a known offset. -/
def u64At : Bytes → ℕ → Checked ℕ := fieldAt 8

/-- Reads `len` bytes at `offset` and verifies the checksum that closes them. -/
def readChecked (file : Bytes) (path : Path) (offset len : ℕ) : Checked (Except Error Bytes) :=
  if len < crcLen then .ok (.error (.corrupt path "block shorter than its checksum"))
  else
    match readExactAt file path offset len with
    | .error err => .ok (.error err)
    | .ok bytes => do
      let split ← Checked.sub len crcLen
      let body ← Checked.slice bytes 0 split
      let stored ← u32At bytes split
      if crc32 body ≠ stored then .ok (.error (.corrupt path "checksum mismatch"))
      else .ok (.ok (bytes.take split))

/-- The range check of `open`.  The second sum is formed only if the first is not past the file. -/
def pastTrailer (trailer indexOffset indexLen filterOffset filterLen : ℕ) : Checked Bool := do
  let indexEnd ← Checked.add u64Limit indexOffset indexLen
  if trailer < indexEnd then .ok true
  else
    let filterEnd ← Checked.add u64Limit filterOffset filterLen
    .ok (decide (trailer < filterEnd))

/-- The part of `open` behind the checks of the footer. -/
def load (path : Path) (file : Bytes) (indexOffset indexLen filterOffset filterLen entries : ℕ) :
    Checked (Except Error SsTable) := do
  let trailer ← Checked.sub file.length footerLen
  let past ← pastTrailer trailer indexOffset indexLen filterOffset filterLen
  if past then .ok (.error (.corrupt path "footer points past the file"))
  else
    match ← readChecked file path indexOffset indexLen with
    | .error err => .ok (.error err)
    | .ok index =>
      match parseIndex index with
      | none => .ok (.error (.corrupt path "index is not readable"))
      | some (minKey, maxKey, blocks) =>
        match ← readChecked file path filterOffset filterLen with
        | .error err => .ok (.error err)
        | .ok filter =>
          match Bloom.decode filter with
          | none => .ok (.error (.corrupt path "filter is not readable"))
          | some filter =>
            .ok (.ok ⟨path, file, blocks, filter, minKey, maxKey, entries, file.length⟩)

/-- The part of `open` that checks the footer. -/
def readFooter (path : Path) (file footer : Bytes) : Checked (Except Error SsTable) := do
  let magicAt ← Checked.sub footerLen magic.length
  let stored ← Checked.slice footer magicAt footer.length
  if stored ≠ magic then .ok (.error (.corrupt path "not a sorted table"))
  else
    let versionAt ← Checked.sub magicAt 4
    let version ← u32At footer versionAt
    if version ≠ formatVersion then
      .ok (.error (.corrupt path s!"format version {version}, expected {formatVersion}"))
    else
      let checked ← Checked.slice footer 0 footerChecked
      let crc ← u32At footer footerChecked
      if crc32 checked ≠ crc then .ok (.error (.corrupt path "footer checksum mismatch"))
      else
        let indexOffset ← u64At footer 0
        let indexLen ← u32At footer 8
        let filterOffset ← u64At footer 12
        let filterLen ← u32At footer 20
        let entries ← u64At footer 24
        load path file indexOffset indexLen filterOffset filterLen entries

/-- `SsTable::open`, on the bytes of the file at `path`. -/
def openFile (path : Path) (file : Bytes) : Checked (Except Error SsTable) :=
  if file.length < footerLen then .ok (.error (.corrupt path "shorter than a footer"))
  else do
    let start ← Checked.sub file.length footerLen
    match readExactAt file path start footerLen with
    | .error err => .ok (.error err)
    | .ok footer => readFooter path file footer

/-- Looks `key` up, reading at most one block. -/
def get (t : SsTable) (key : Bytes) : Checked (Except Error Lookup) :=
  if key < t.minKey ∨ t.maxKey < key then .ok (.ok .missing)
  else do
    let may ← Lsmkv.Debug.mayContainHash t.filter (Bloom.hash key)
    if !may then .ok (.ok .missing)
    else
      let candidate := partitionPoint (fun block => decide (block.firstKey ≤ key)) t.blocks
      match (if candidate = 0 then none else t.blocks[candidate - 1]?) with
      | none => .ok (.ok .missing)
      | some block =>
        match ← readChecked t.file t.path block.offset block.len with
        | .error err => .ok (.error err)
        | .ok bytes =>
          match scanBlock key bytes.length bytes with
          | some lookup => .ok (.ok lookup)
          | none => .ok (.error (.corrupt t.path "block is not readable"))

/-- The loop of `Scan::next`. -/
def loop : ℕ → Scan → Checked (Option (Except Error Entry) × Scan)
  | 0, s => .ok (none, s)
  | fuel + 1, s =>
    if s.offset < s.buffer.length then do
      let cursor ← Checked.slice s.buffer s.offset s.buffer.length
      match takeRecord cursor with
      | none =>
        .ok (some (.error (.corrupt s.table.path "block is not readable")),
          { s with failed := true })
      | some (e, cursor) =>
        let offset ← Checked.sub s.buffer.length cursor.length
        .ok (some (.ok e), { s with offset := offset })
    else
      match s.table.blocks[s.nextBlock]? with
      | none => .ok (none, s)
      | some block => do
        let nextBlock ← Checked.add u64Limit s.nextBlock 1
        let s := { s with nextBlock := nextBlock }
        match ← readChecked s.table.file s.table.path block.offset block.len with
        | .ok bytes => loop fuel { s with buffer := bytes, offset := 0 }
        | .error err => .ok (some (.error err), { s with failed := true })

/-- `Iterator::next`. -/
def next (s : Scan) : Checked (Option (Except Error Entry) × Scan) :=
  if s.failed then .ok (none, s) else loop (s.table.blocks.length - s.nextBlock + 1) s

/-! ### Reading a region -/

theorem fieldAt_eq {width offset : ℕ} {bytes : Bytes} (h : offset + width ≤ bytes.length)
    (hlimit : offset + width < u64Limit) :
    fieldAt width bytes offset = .ok (ofLeBytes ((bytes.drop offset).take width)) := by
  rw [fieldAt, Checked.add_of_lt hlimit, Checked.ok_bind,
    Checked.slice_of_le (Nat.le_add_right _ _) h, Checked.ok_bind, Nat.add_sub_cancel_left]

theorem u32At_eq {offset : ℕ} {bytes : Bytes} (h : offset + 4 ≤ bytes.length)
    (hlimit : offset + 4 < u64Limit) : u32At bytes offset = .ok (Lsmkv.u32At bytes offset) :=
  fieldAt_eq h hlimit

theorem u64At_eq {offset : ℕ} {bytes : Bytes} (h : offset + 8 ≤ bytes.length)
    (hlimit : offset + 8 < u64Limit) : u64At bytes offset = .ok (Lsmkv.u64At bytes offset) :=
  fieldAt_eq h hlimit

theorem length_of_readExactAt {file bytes : Bytes} {path : Path} {offset len : ℕ}
    (h : readExactAt file path offset len = .ok bytes) : bytes.length = len := by
  unfold readExactAt at h
  split_ifs at h with hlen
  obtain rfl := Except.ok.inj h
  rw [List.length_take, List.length_drop]
  omega

/-- **Reading a region does not panic**, wherever it is said to be. -/
theorem readChecked_eq (file : Bytes) (path : Path) (offset : ℕ) {len : ℕ} (h : len < u32Limit) :
    readChecked file path offset len = .ok (Sst.readChecked file path offset len) := by
  unfold readChecked Sst.readChecked
  split_ifs with hshort
  · rfl
  · cases hread : readExactAt file path offset len with
    | error err => rfl
    | ok bytes =>
      have hlen := length_of_readExactAt hread
      have hsplit : len - crcLen + 4 = len := by
        unfold crcLen at *
        omega
      have hlimit : len < u64Limit := h.trans (by decide)
      dsimp only
      rw [Checked.sub_of_le (not_lt.mp hshort), Checked.ok_bind,
        Checked.slice_of_le (Nat.zero_le _) (by omega), Checked.ok_bind,
        u32At_eq (by omega) (by omega), Checked.ok_bind, ok_bind, List.drop_zero, Nat.sub_zero]
      split_ifs with hcrc
      · rfl
      · rfl

/-! ### Opening -/

/-- The fields of a footer. -/
structure Footer where
  indexOffset : ℕ
  indexLen : ℕ
  filterOffset : ℕ
  filterLen : ℕ
  entries : ℕ
  deriving DecidableEq, Repr

/-- The index or the filter is not inside the bytes before the footer. -/
def Footer.Outside (f : Footer) (trailer : ℕ) : Prop :=
  trailer < f.indexOffset + f.indexLen ∨ trailer < f.filterOffset + f.filterLen

/-- The range check adds an offset and a length whose sum is not a `u64`. -/
def Footer.Overflows (f : Footer) (trailer : ℕ) : Prop :=
  u64Limit ≤ f.indexOffset + f.indexLen
    ∨ f.indexOffset + f.indexLen ≤ trailer ∧ u64Limit ≤ f.filterOffset + f.filterLen

/-- The magic, the version and the checksum of a footer are right. -/
def FooterValid (footer : Bytes) : Prop :=
  footer.drop (footerLen - magic.length) = magic
    ∧ Lsmkv.u32At footer (footerLen - magic.length - 4) = formatVersion
    ∧ crc32 (footer.take footerChecked) = Lsmkv.u32At footer footerChecked

instance (footer : Bytes) : Decidable (FooterValid footer) :=
  inferInstanceAs (Decidable (_ ∧ _ ∧ _))

/-- The footer of a file, if it is long enough for one and the footer is valid. -/
def footerIn (file : Bytes) : Option Footer :=
  let footer := file.drop (file.length - footerLen)
  if footerLen ≤ file.length ∧ FooterValid footer then
    some ⟨Lsmkv.u64At footer 0, Lsmkv.u32At footer 8, Lsmkv.u64At footer 12, Lsmkv.u32At footer 20,
      Lsmkv.u64At footer 24⟩
  else none

theorem u32At_lt (bytes : Bytes) (offset : ℕ) : Lsmkv.u32At bytes offset < u32Limit := by
  have hlt := ofLeBytes_lt ((bytes.drop offset).take 4)
  have hpow : 256 ^ ((bytes.drop offset).take 4).length ≤ 256 ^ 4 :=
    Nat.pow_le_pow_right (by decide) (List.length_take_le 4 _)
  exact (hlt.trans_le hpow).trans_le (by decide)

theorem lens_of_footerIn {file : Bytes} {f : Footer} (h : footerIn file = some f) :
    f.indexLen < u32Limit ∧ f.filterLen < u32Limit := by
  unfold footerIn at h
  dsimp only at h
  split_ifs at h
  cases h
  exact ⟨u32At_lt _ _, u32At_lt _ _⟩

section

variable {f : Footer} {trailer : ℕ}

theorem pastTrailer_of_overflows (h : f.Overflows trailer) :
    pastTrailer trailer f.indexOffset f.indexLen f.filterOffset f.filterLen = .error .overflow := by
  unfold pastTrailer
  by_cases hindex : u64Limit ≤ f.indexOffset + f.indexLen
  · rw [Checked.add_of_le hindex, Checked.error_bind]
  · obtain ⟨hinside, hfilter⟩ := h.resolve_left hindex
    rw [Checked.add_of_lt (not_le.mp hindex), Checked.ok_bind, if_neg (not_lt.mpr hinside),
      Checked.add_of_le hfilter, Checked.error_bind]

open Classical in
theorem pastTrailer_of_not_overflows (h : ¬f.Overflows trailer) :
    pastTrailer trailer f.indexOffset f.indexLen f.filterOffset f.filterLen
      = .ok (decide (f.Outside trailer)) := by
  unfold Footer.Overflows at h
  push Not at h
  unfold pastTrailer Footer.Outside
  rw [Checked.add_of_lt h.1, Checked.ok_bind]
  split_ifs with hindex
  · simp [hindex]
  · rw [Checked.add_of_lt (h.2 (not_lt.mp hindex)), Checked.ok_bind]
    simp [hindex]

/-- Without an overflow the release build compares the same sums. -/
theorem outside_iff_of_not_overflows (h : ¬f.Overflows trailer) :
    f.Outside trailer ↔ trailer < (f.indexOffset + f.indexLen) % u64Limit
      ∨ trailer < (f.filterOffset + f.filterLen) % u64Limit := by
  unfold Footer.Overflows at h
  push Not at h
  unfold Footer.Outside
  rw [Nat.mod_eq_of_lt h.1]
  by_cases hindex : trailer < f.indexOffset + f.indexLen
  · simp [hindex]
  · rw [Nat.mod_eq_of_lt (h.2 (not_lt.mp hindex))]

end

section

variable {path : Path} {file : Bytes} {f : Footer}

theorem load_of_overflows (hlen : footerLen ≤ file.length)
    (h : f.Overflows (file.length - footerLen)) :
    load path file f.indexOffset f.indexLen f.filterOffset f.filterLen f.entries
      = .error .overflow := by
  rw [load, Checked.sub_of_le hlen, Checked.ok_bind, pastTrailer_of_overflows h, Checked.error_bind]

theorem load_of_not_overflows (hlen : footerLen ≤ file.length)
    (h : ¬f.Overflows (file.length - footerLen)) (hindex : f.indexLen < u32Limit)
    (hfilter : f.filterLen < u32Limit) :
    load path file f.indexOffset f.indexLen f.filterOffset f.filterLen f.entries
      = .ok (SsTable.load path file f.indexOffset f.indexLen f.filterOffset f.filterLen
          f.entries) := by
  have houtside := outside_iff_of_not_overflows h
  rw [load, Checked.sub_of_le hlen, Checked.ok_bind, pastTrailer_of_not_overflows h,
    Checked.ok_bind, readChecked_eq _ _ _ hindex, readChecked_eq _ _ _ hfilter, SsTable.load]
  by_cases hpast : f.Outside (file.length - footerLen)
  · rw [if_pos (by simpa using hpast), if_pos (houtside.mp hpast)]
  · rw [if_neg (by simpa using hpast), if_neg (mt houtside.mpr hpast), Checked.ok_bind]
    cases Sst.readChecked file path f.indexOffset f.indexLen with
    | error err => rfl
    | ok index =>
      dsimp only
      rw [ok_bind]
      cases parseIndex index with
      | none => rfl
      | some parsed =>
        dsimp only
        rw [ok_bind, Checked.ok_bind]
        cases Sst.readChecked file path f.filterOffset f.filterLen with
        | error err => rfl
        | ok filter =>
          dsimp only
          rw [ok_bind]
          cases Bloom.decode filter with
          | none => rfl
          | some bloom => rfl

/-- A region outside of the file is refused by the range check, if that does not overflow. -/
theorem load_of_outside (h : ¬f.Overflows (file.length - footerLen))
    (houtside : f.Outside (file.length - footerLen)) :
    SsTable.load path file f.indexOffset f.indexLen f.filterOffset f.filterLen f.entries
      = .error (.corrupt path "footer points past the file") := by
  rw [SsTable.load, if_pos ((outside_iff_of_not_overflows h).mp houtside)]

end

/-- The checks of a footer as a sequence of comparisons: none of its fields is out of range. -/
theorem readFooter_eq (path : Path) (file : Bytes) {footer : Bytes}
    (h : footer.length = footerLen) :
    readFooter path file footer
      = if FooterValid footer then
          load path file (Lsmkv.u64At footer 0) (Lsmkv.u32At footer 8) (Lsmkv.u64At footer 12)
            (Lsmkv.u32At footer 20) (Lsmkv.u64At footer 24)
        else .ok (SsTable.readFooter path file footer) := by
  have hmagic : (footer.drop (footerLen - magic.length)).take
      (footer.length - (footerLen - magic.length)) = footer.drop (footerLen - magic.length) := by
    rw [← List.length_drop, List.take_length]
  have h32 :
      ∀ {offset}, offset + 4 ≤ footerLen → u32At footer offset = .ok (Lsmkv.u32At footer offset) :=
    fun hle => u32At_eq (by omega) (hle.trans_lt (by decide))
  have h64 :
      ∀ {offset}, offset + 8 ≤ footerLen → u64At footer offset = .ok (Lsmkv.u64At footer offset) :=
    fun hle => u64At_eq (by omega) (hle.trans_lt (by decide))
  rw [readFooter, Checked.sub_of_le (by decide), Checked.ok_bind,
    Checked.slice_of_le (by rw [h]; decide) le_rfl, Checked.ok_bind, hmagic,
    Checked.sub_of_le (by decide), Checked.ok_bind, h32 (by decide), Checked.ok_bind,
    Checked.slice_of_le (Nat.zero_le _) (by rw [h]; decide), Checked.ok_bind, h32 (by decide),
    Checked.ok_bind, h64 (by decide), Checked.ok_bind, h32 (by decide), Checked.ok_bind,
    h64 (by decide), Checked.ok_bind, h32 (by decide), Checked.ok_bind, h64 (by decide),
    Checked.ok_bind, List.drop_zero, Nat.sub_zero, SsTable.readFooter]
  by_cases hvalid : FooterValid footer
  · rw [if_pos hvalid, if_neg (not_not.mpr hvalid.1), if_neg (not_not.mpr hvalid.2.1),
      if_neg (not_not.mpr hvalid.2.2)]
  · rw [if_neg hvalid]
    split_ifs with hmagic' hversion hcrc
    · rfl
    · rfl
    · rfl
    · exact absurd ⟨not_not.mp hmagic', not_not.mp hversion, not_not.mp hcrc⟩ hvalid

section

variable {path : Path} {file : Bytes}

theorem readExactAt_footer (path : Path) (h : footerLen ≤ file.length) :
    readExactAt file path (file.length - footerLen) footerLen
      = .ok (file.drop (file.length - footerLen)) := by
  rw [readExactAt, if_pos (by omega), List.take_of_length_le (by rw [List.length_drop]; omega)]

/-- A file with a valid footer is opened by the fields of the footer. -/
theorem openFile_of_footer {f : Footer} (path : Path) (h : footerIn file = some f) :
    footerLen ≤ file.length
      ∧ openFile path file
        = load path file f.indexOffset f.indexLen f.filterOffset f.filterLen f.entries
      ∧ SsTable.openFile path file
        = SsTable.load path file f.indexOffset f.indexLen f.filterOffset f.filterLen f.entries := by
  unfold footerIn at h
  dsimp only at h
  split_ifs at h with hvalid
  obtain ⟨hlen, hvalid⟩ := hvalid
  cases h
  have hfooter : (file.drop (file.length - footerLen)).length = footerLen := by
    rw [List.length_drop]
    omega
  refine ⟨hlen, ?_, ?_⟩
  · rw [openFile, if_neg hlen.not_gt, Checked.sub_of_le hlen, Checked.ok_bind,
      readExactAt_footer path hlen]
    dsimp only
    rw [readFooter_eq path file hfooter, if_pos hvalid]
  · rw [SsTable.openFile, if_neg hlen.not_gt, readExactAt_footer path hlen, ok_bind,
      SsTable.readFooter, if_neg (not_not.mpr hvalid.1), if_neg (not_not.mpr hvalid.2.1),
      if_neg (not_not.mpr hvalid.2.2)]

/-- A file without a valid footer is refused before its fields are looked at. -/
theorem openFile_of_no_footer (path : Path) (h : footerIn file = none) :
    openFile path file = .ok (SsTable.openFile path file) := by
  rw [openFile, SsTable.openFile]
  by_cases hlen : file.length < footerLen
  · rw [if_pos hlen, if_pos hlen]
  · have hfooter : (file.drop (file.length - footerLen)).length = footerLen := by
      rw [List.length_drop]
      omega
    have hinvalid : ¬FooterValid (file.drop (file.length - footerLen)) := by
      intro hvalid
      rw [footerIn, if_pos ⟨not_lt.mp hlen, hvalid⟩] at h
      cases h
    rw [if_neg hlen, if_neg hlen, Checked.sub_of_le (not_lt.mp hlen), Checked.ok_bind,
      readExactAt_footer path (not_lt.mp hlen), ok_bind]
    dsimp only
    rw [readFooter_eq path file hfooter, if_neg hinvalid]

/-- **`open` panics exactly if its range check overflows**; otherwise it is that of the release
build. -/
theorem openFile_eq (h : ∀ f, footerIn file = some f → ¬f.Overflows (file.length - footerLen)) :
    openFile path file = .ok (SsTable.openFile path file) := by
  cases hfooter : footerIn file with
  | none => exact openFile_of_no_footer path hfooter
  | some f =>
    obtain ⟨hlen, hopen, hrelease⟩ := openFile_of_footer path hfooter
    obtain ⟨hindex, hfilter⟩ := lens_of_footerIn hfooter
    rw [hopen, hrelease, load_of_not_overflows hlen (h f hfooter) hindex hfilter]

theorem openFile_of_overflows {f : Footer} (hfooter : footerIn file = some f)
    (h : f.Overflows (file.length - footerLen)) : openFile path file = .error .overflow := by
  obtain ⟨hlen, hopen, -⟩ := openFile_of_footer path hfooter
  rw [hopen, load_of_overflows hlen h]

end

/-! ### Tables that were opened -/

/-- What `open` has checked of a table it returns. -/
structure Readable (t : SsTable) : Prop where
  filter : 2 ≤ t.filter.data.length
  blocks : t.blocks.length < u64Limit
  lens : ∀ block ∈ t.blocks, block.len < u32Limit

theorem parseBlocks_spec {fuel : ℕ} {cursor : Bytes} {blocks : List BlockRef}
    (h : parseBlocks fuel cursor = some blocks) :
    blocks.length ≤ fuel ∧ ∀ block ∈ blocks, block.len < u32Limit := by
  induction fuel generalizing cursor blocks with
  | zero =>
    cases h
    exact ⟨le_rfl, by simp⟩
  | succ fuel ih =>
    rw [parseBlocks] at h
    split_ifs at h with hend
    · cases h
      exact ⟨Nat.zero_le _, by simp⟩
    · simp only [Option.bind_eq_bind, Option.bind_eq_some_iff, Prod.exists, Option.some.injEq] at h
      obtain ⟨firstKey, c₁, -, offset, c₂, -, len, c₃, hlen, rest, hrest, rfl⟩ := h
      obtain ⟨hle, hall⟩ := ih hrest
      refine ⟨Nat.succ_le_succ hle, List.forall_mem_cons.mpr ⟨?_, hall⟩⟩
      exact (takeU32_eq_some hlen).2

theorem length_le_of_decode {bytes : Bytes} {filter : Bloom}
    (h : Bloom.decode bytes = some filter) : 2 ≤ filter.data.length := by
  unfold Bloom.decode at h
  split at h
  · cases h
  · split_ifs at h with hshort
    cases h
    dsimp only
    omega

theorem readable_of_load {path : Path} {file : Bytes}
    {indexOffset indexLen filterOffset filterLen entries : ℕ} {t : SsTable}
    (h : SsTable.load path file indexOffset indexLen filterOffset filterLen entries = .ok t)
    (hindexLen : indexLen < u32Limit) : Readable t := by
  obtain ⟨-, index, hindex, minKey, maxKey, blocks, hparse, bytes, -, filter, hdecode, rfl⟩ :=
    load_eq_ok h
  simp only [parseIndex, Option.bind_eq_bind, Option.bind_eq_some_iff, Prod.exists,
    Option.some.injEq, Prod.mk.injEq] at hparse
  obtain ⟨_, c₁, hmin, _, c₂, hmax, _, hblocks, rfl, rfl, rfl⟩ := hparse
  obtain ⟨hle, hlens⟩ := parseBlocks_spec hblocks
  -- there are fewer blocks than bytes in the index
  have hlen := length_le_of_readChecked hindex
  rw [(takeField_eq_some hmin).1, (takeField_eq_some hmax).1] at hlen
  simp only [List.length_append] at hlen
  have hlimit : u32Limit ≤ u64Limit := by decide
  exact ⟨length_le_of_decode hdecode, by dsimp only; omega, hlens⟩

theorem readable_of_openFile {path : Path} {file : Bytes} {t : SsTable}
    (h : SsTable.openFile path file = .ok t) : Readable t := by
  unfold SsTable.openFile at h
  split_ifs at h with hshort
  obtain ⟨footer, -, h⟩ := bind_eq_ok h
  unfold SsTable.readFooter at h
  dsimp only at h
  split_ifs at h with hmagic hversion hcrc
  exact readable_of_load h (u32At_lt _ _)

/-- **A lookup does not panic.** -/
theorem get_eq {t : SsTable} (h : Readable t) (key : Bytes) : get t key = .ok (t.get key) := by
  unfold get SsTable.get
  rw [Lsmkv.Debug.mayContainHash_eq h.filter, Checked.ok_bind, ← Bloom.mayContain]
  split_ifs with hrange hmay
  · rfl
  · rfl
  · dsimp only
    cases hblock : (if partitionPoint (fun block => decide (block.firstKey ≤ key)) t.blocks = 0
      then none
      else t.blocks[partitionPoint (fun block => decide (block.firstKey ≤ key)) t.blocks - 1]?) with
    | none => rfl
    | some block =>
      have hmem : block ∈ t.blocks := by
        split_ifs at hblock with hzero
        exact List.mem_of_getElem? hblock
      dsimp only
      rw [readChecked_eq _ _ _ (h.lens block hmem), Checked.ok_bind]
      cases Sst.readChecked t.file t.path block.offset block.len with
      | error err => rfl
      | ok bytes =>
        dsimp only
        rw [ok_bind]
        cases scanBlock key bytes.length bytes with
        | none => rfl
        | some lookup => rfl

theorem loop_eq {fuel : ℕ} {s : Scan} (h : Readable s.table) :
    loop fuel s = .ok (Scan.loop fuel s) := by
  induction fuel generalizing s with
  | zero => rfl
  | succ fuel ih =>
    rw [loop, Scan.loop]
    split_ifs with hmore
    · rw [Checked.slice_of_le hmore.le le_rfl, Checked.ok_bind, ← List.length_drop,
        List.take_length]
      cases htake : takeRecord (s.buffer.drop s.offset) with
      | none => rfl
      | some taken =>
        obtain ⟨e, cursor⟩ := taken
        have hlt := length_lt_of_takeRecord htake
        rw [List.length_drop] at hlt
        dsimp only
        rw [Checked.sub_of_le (by omega), Checked.ok_bind]
    · cases hblock : s.table.blocks[s.nextBlock]? with
      | none => rfl
      | some block =>
        have hlt := (List.getElem?_eq_some_iff.mp hblock).1
        have hlimit := h.blocks
        dsimp only
        rw [Checked.add_of_lt (by omega), Checked.ok_bind,
          readChecked_eq _ _ _ (h.lens block (List.mem_of_getElem? hblock)), Checked.ok_bind]
        cases Sst.readChecked s.table.file s.table.path block.offset block.len with
        | error err => rfl
        | ok bytes => exact ih h

theorem table_loop (fuel : ℕ) (s : Scan) : (Scan.loop fuel s).2.table = s.table := by
  induction fuel generalizing s with
  | zero => rfl
  | succ fuel ih =>
    rw [Scan.loop]
    split_ifs with hmore
    · split <;> rfl
    · split
      · rfl
      · dsimp only
        split
        · exact ih _
        · rfl

/-- A call to a scan does not panic and stays with its table. -/
theorem next_eq {s : Scan} (h : Readable s.table) :
    next s = .ok (Scan.next s) ∧ Readable (Scan.next s).2.table := by
  unfold next Scan.next
  split_ifs with hfailed
  · exact ⟨rfl, h⟩
  · refine ⟨loop_eq h, ?_⟩
    rwa [table_loop]

/-- **A full scan does not panic**, and ends. -/
theorem exists_drain {t : SsTable} (h : Readable t) :
    ∃ fuel items, Checked.drain next fuel t.scan = .ok (some items) := by
  obtain ⟨items, hyields, -⟩ := Scan.exists_yields_scan t.scan
  exact ⟨items.length + 1, items, Checked.drain_eq (fun s => Readable s.table)
    (fun s hs => (next_eq hs).1) (fun s hs => (next_eq hs).2) hyields h (Nat.lt_succ_self _)⟩

/-- **Opening any file is safe exactly if the range check does not overflow**: then `open` returns,
and it refuses every footer with a region outside of the file.  And whenever a file was opened,
every lookup and the full scan return. -/
theorem openFile_safe_iff (path : Path) (file : Bytes) :
    (((∃ r, openFile path file = .ok r)
        ∧ ∀ f, footerIn file = some f → f.Outside (file.length - footerLen) →
          openFile path file = .ok (.error (.corrupt path "footer points past the file")))
      ↔ ∀ f, footerIn file = some f → ¬f.Overflows (file.length - footerLen))
    ∧ ∀ t, openFile path file = .ok (.ok t) ∨ SsTable.openFile path file = .ok t →
      (∀ key, ∃ r, get t key = .ok r)
        ∧ ∃ fuel items, Checked.drain next fuel t.scan = .ok (some items) := by
  refine ⟨⟨?_, fun h => ⟨⟨_, openFile_eq h⟩, fun f hfooter houtside => ?_⟩⟩, fun t ht => ?_⟩
  · rintro ⟨⟨r, hr⟩, -⟩ f hfooter hoverflows
    rw [openFile_of_overflows hfooter hoverflows] at hr
    cases hr
  · rw [openFile_eq h, (openFile_of_footer path hfooter).2.2,
      load_of_outside (h f hfooter) houtside]
  · have hrelease : SsTable.openFile path file = .ok t := by
      rcases ht with ht | ht
      · by_cases h : ∀ f, footerIn file = some f → ¬f.Overflows (file.length - footerLen)
        · rw [openFile_eq h] at ht
          exact Except.ok.inj ht
        · push Not at h
          obtain ⟨f, hfooter, hoverflows⟩ := h
          rw [openFile_of_overflows hfooter hoverflows] at ht
          cases ht
      · exact ht
    have hreadable := readable_of_openFile hrelease
    exact ⟨fun key => ⟨_, get_eq hreadable key⟩, exists_drain hreadable⟩

/-- A file that is nothing but a footer, with an index of four bytes at the last offset whose end
is past every `u64`. -/
def wrapped : Bytes := footerBytes (u64Limit - 4) 4 0 0 0

theorem footerIn_wrapped : footerIn wrapped = some ⟨u64Limit - 4, 4, 0, 0, 0⟩ := by
  have hlen : wrapped.length = footerLen := length_footerBytes _ _ _ _ _
  obtain ⟨hvalid, h0, h8, h12, h20, h24⟩ := @footerBytes_fields (u64Limit - 4) 4 0 0 0 wrapped rfl
    (by decide) (by decide) (by decide) (by decide) (by decide)
  have hdrop : wrapped.drop (wrapped.length - footerLen) = wrapped := by
    rw [hlen, Nat.sub_self, List.drop_zero]
  rw [footerIn, hdrop, if_pos ⟨hlen.ge, hvalid⟩, h0, h8, h12, h20, h24]

/-- On that file `open` panics in a debug build.  In a release build the sum wraps to zero, so the
range check lets it pass, and it is not reported as corrupt. -/
theorem not_openFile_safe :
    (¬∀ path file, ∃ r, openFile path file = .ok r)
      ∧ ¬∀ path file f, footerIn file = some f → f.Outside (file.length - footerLen) →
          ∃ reason, SsTable.openFile path file = .error (.corrupt path reason) := by
  have hlen : wrapped.length = footerLen := length_footerBytes _ _ _ _ _
  constructor
  · intro h
    obtain ⟨r, hr⟩ := h .manifest wrapped
    rw [openFile_of_overflows footerIn_wrapped (Or.inl (by decide))] at hr
    cases hr
  · intro h
    obtain ⟨reason, hreason⟩ := h .manifest wrapped _ footerIn_wrapped
      (Or.inl (by rw [hlen, Nat.sub_self]; decide))
    have hio : Sst.readChecked wrapped .manifest (u64Limit - 4) 4 = .error (.io .manifest) := by
      rw [Sst.readChecked, if_neg (by decide), readExactAt, if_neg (by rw [hlen]; decide)]
      rfl
    rw [(openFile_of_footer .manifest footerIn_wrapped).2.2, SsTable.load, if_neg, hio] at hreason
    · cases hreason
    · rw [hlen, Nat.sub_self]
      decide

end Lsmkv.Sst.Debug
