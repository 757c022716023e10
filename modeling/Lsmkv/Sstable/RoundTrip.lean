import Lsmkv.Sstable.Reader

/-!
# A table is read back as it was written

The parsers are followed over what the writer wrote: a record, an index entry, a region closed by
its checksum, the footer.  `openFile_fileOf` opens the file of some entries, `yields_scan` scans it
and `get_tableOf` looks keys up in it; `openFile_writeTable` puts them together for every list of
entries whose table was written.

A lookup stops at three tests before it reads a block, and each hides no key of the table: the range
by `firstKey_le` and `le_lastKey`, the filter because it was built over the hashes of the keys, and
the index by `find?_of_split`.
-/

namespace Lsmkv.Sst

/-! ### Parsers on what the writer wrote -/

theorem takeField_field {bytes : Bytes} (rest : Bytes) (h : bytes.length < u32Limit) :
    takeField (field bytes ++ rest) = some (bytes, rest) := takeField_append rest h

/-- A record is read back, and the cursor stops right behind it. -/
theorem takeRecord_append {e : Entry} (hfits : FieldsFit e) (hseq : e.seq < u64Limit)
    (rest : Bytes) : takeRecord (record e ++ rest) = some (e, rest) := by
  obtain ⟨key, seq, value⟩ := e
  cases value with
  | none =>
    rw [record, takeRecord, List.append_assoc, takeU64_append _ hseq]
    simp [takeU8, takeField_field _ hfits.1, kindDelete, kindSet]
  | some value =>
    rw [record, takeRecord, List.append_assoc, takeU64_append _ hseq]
    simp [takeU8, takeField_field _ hfits.1, takeField_field _ (hfits.2 value rfl)]

theorem u32At_append {pre : Bytes} {offset n : ℕ} (post : Bytes) (hoffset : pre.length = offset)
    (hn : n < u32Limit) : u32At (pre ++ (toLeBytes 4 n ++ post)) offset = n := by
  rw [u32At, List.drop_left' hoffset, List.take_left' (length_toLeBytes 4 n)]
  exact ofLeBytes_toLeBytes (lt_of_lt_of_le hn (by norm_num [u32Limit]))

theorem u64At_append {pre : Bytes} {offset n : ℕ} (post : Bytes) (hoffset : pre.length = offset)
    (hn : n < u64Limit) : u64At (pre ++ (toLeBytes 8 n ++ post)) offset = n := by
  rw [u64At, List.drop_left' hoffset, List.take_left' (length_toLeBytes 8 n)]
  exact ofLeBytes_toLeBytes (lt_of_lt_of_le hn (by norm_num [u64Limit]))

theorem readExactAt_append {pre bytes : Bytes} (post : Bytes) (path : Path) {offset len : ℕ}
    (hoffset : pre.length = offset) (hlen : bytes.length = len) :
    readExactAt (pre ++ (bytes ++ post)) path offset len = .ok bytes := by
  unfold readExactAt
  rw [if_pos, List.drop_left' hoffset, List.take_left' hlen]
  rw [List.length_append, List.length_append]
  omega

/-- The region of a file that a checksum closes is read back without it. -/
theorem readChecked_append (pre body post : Bytes) (path : Path) :
    readChecked (pre ++ (withCrc body ++ post)) path pre.length (withCrc body).length
      = .ok body := by
  have hlen := length_withCrc body
  have hsplit : (withCrc body).length - crcLen = body.length := by omega
  have hbody : (withCrc body).take body.length = body := List.take_left
  have hcrc : u32At (withCrc body) body.length = crc32 body := by
    have := u32At_append [] (rfl : body.length = _) (crc32_lt body)
    rwa [List.append_nil] at this
  unfold readChecked
  rw [if_neg (by omega), readExactAt_append post path rfl rfl, hsplit]
  change (if crc32 ((withCrc body).take body.length) ≠ u32At (withCrc body) body.length then _
    else Except.ok ((withCrc body).take body.length)) = _
  rw [hbody, hcrc, if_neg (not_not.mpr rfl)]

theorem length_le_length_records (es : List Entry) : es.length ≤ (records es).length := by
  induction es with
  | nil => exact Nat.zero_le _
  | cons e es ih =>
    have hpos := List.length_pos_iff.mpr (record_ne_nil e)
    rw [records, List.flatMap_cons, List.length_append, List.length_cons]
    rw [records] at ih
    omega

/-- The scan of a block answers as the entries of the block do. -/
theorem scanBlock_records {c : List Entry} (hfits : ∀ e ∈ c, FieldsFit e)
    (hseq : ∀ e ∈ c, e.seq < u64Limit) (hsorted : c.Pairwise fun e f => e.key < f.key)
    (key : Bytes) {fuel : ℕ} (hfuel : c.length ≤ fuel) :
    scanBlock key fuel (records c) = some (Lookup.ofEntry (c.find? fun e => e.key = key)) := by
  induction c generalizing fuel with
  | nil => cases fuel <;> rfl
  | cons e c ih =>
    obtain ⟨hfirst, hrest⟩ := List.pairwise_cons.mp hsorted
    cases fuel with
    | zero => cases hfuel
    | succ fuel =>
      have hne : records (e :: c) ≠ [] := mt records_eq_nil_iff.mp (List.cons_ne_nil e c)
      have htake : takeRecord (records (e :: c)) = some (e, records c) :=
        takeRecord_append (hfits e List.mem_cons_self) (hseq e List.mem_cons_self) (records c)
      rw [scanBlock, if_neg hne, htake, Option.bind_eq_bind, Option.bind_some]
      dsimp only
      rcases lt_trichotomy e.key key with hlt | heq | hgt
      · rw [ordCmp_eq_lt.mpr hlt, List.find?_cons_of_neg (by simpa using hlt.ne)]
        exact ih (fun f hf => hfits f (List.mem_cons_of_mem e hf))
          (fun f hf => hseq f (List.mem_cons_of_mem e hf)) hrest (Nat.le_of_succ_le_succ hfuel)
      · rw [ordCmp_eq_eq.mpr heq, List.find?_cons_of_pos (by simpa using heq)]
      · have hnone : (e :: c).find? (fun f => f.key = key) = none := by
          rw [List.find?_eq_none]
          intro f hf
          rcases List.mem_cons.mp hf with rfl | hf
          · simpa using hgt.ne'
          · simpa using (hgt.trans (hfirst f hf)).ne'
        rw [ordCmp_eq_gt.mpr hgt, hnone]
        rfl

/-- A reference to a block whose fields fit. -/
def BlockRef.Fits (r : BlockRef) : Prop :=
  r.firstKey.length < u32Limit ∧ r.offset < u64Limit ∧ r.len < u32Limit

theorem indexEntry_ne_nil (r : BlockRef) : indexEntry r ≠ [] := by
  intro h
  have := congrArg List.length h
  rw [indexEntry, List.length_append, length_toLeBytes, List.length_nil] at this
  omega

theorem parseBlocks_flatMap {refs : List BlockRef} (h : ∀ r ∈ refs, r.Fits) {fuel : ℕ}
    (hfuel : refs.length ≤ fuel) : parseBlocks fuel (refs.flatMap indexEntry) = some refs := by
  induction refs generalizing fuel with
  | nil => cases fuel <;> rfl
  | cons r refs ih =>
    cases fuel with
    | zero => cases hfuel
    | succ fuel =>
      obtain ⟨⟨hkey, hoffset, hlen⟩, hrest⟩ := List.forall_mem_cons.mp h
      have hne : (r :: refs).flatMap indexEntry ≠ [] :=
        List.append_ne_nil_of_left_ne_nil (indexEntry_ne_nil r) _
      rw [parseBlocks, if_neg hne, List.flatMap_cons, indexEntry, List.append_assoc,
        List.append_assoc, takeField_field _ hkey]
      simp [takeU64_append _ hoffset, takeU32_append _ hlen,
        ih hrest (Nat.le_of_succ_le_succ hfuel)]

theorem length_le_length_flatMap (refs : List BlockRef) :
    refs.length ≤ (refs.flatMap indexEntry).length := by
  induction refs with
  | nil => exact Nat.zero_le _
  | cons r refs ih =>
    have hpos := List.length_pos_iff.mpr (indexEntry_ne_nil r)
    rw [List.flatMap_cons, List.length_append, List.length_cons]
    omega

theorem parseIndex_indexOf {es : List Entry} (hes : ∀ e ∈ es, FieldsFit e) {refs : List BlockRef}
    (hrefs : ∀ r ∈ refs, r.Fits) :
    parseIndex (indexOf es refs) = some (firstKey es, lastKey es, refs) := by
  rw [parseIndex, indexOf, List.append_assoc, takeField_field _ (firstKey_length_lt hes)]
  simp only [Option.bind_eq_bind, Option.bind_some, takeField_field _ (lastKey_length_lt hes),
    parseBlocks_flatMap hrefs (length_le_length_flatMap refs)]

/-! ### Opening the file -/

/-- The last bytes of a file whose footer has these fields. -/
def footerBytes (indexOffset indexLen filterOffset filterLen entries : ℕ) : Bytes :=
  withCrc (footerOf indexOffset indexLen filterOffset filterLen entries)
    ++ toLeBytes 4 formatVersion ++ magic

theorem length_footerOf (indexOffset indexLen filterOffset filterLen entries : ℕ) :
    (footerOf indexOffset indexLen filterOffset filterLen entries).length = footerChecked := by
  simp [footerOf, footerChecked]

theorem length_footerBytes (indexOffset indexLen filterOffset filterLen entries : ℕ) :
    (footerBytes indexOffset indexLen filterOffset filterLen entries).length = footerLen := by
  simp [footerBytes, length_withCrc, length_footerOf, footerLen, footerChecked, crcLen, magic]

/-- A footer passes its checks and holds its fields. -/
theorem footerBytes_fields {indexOffset indexLen filterOffset filterLen entries : ℕ}
    {footer : Bytes}
    (hfooter : footer = footerBytes indexOffset indexLen filterOffset filterLen entries)
    (hindexOffset : indexOffset < u64Limit) (hindexLen : indexLen < u32Limit)
    (hfilterOffset : filterOffset < u64Limit) (hfilterLen : filterLen < u32Limit)
    (hentries : entries < u64Limit) :
    (footer.drop (footerLen - magic.length) = magic
        ∧ u32At footer (footerLen - magic.length - 4) = formatVersion
        ∧ crc32 (footer.take footerChecked) = u32At footer footerChecked)
      ∧ u64At footer 0 = indexOffset ∧ u32At footer 8 = indexLen ∧ u64At footer 12 = filterOffset
      ∧ u32At footer 20 = filterLen ∧ u64At footer 24 = entries := by
  have hlen := length_footerOf indexOffset indexLen filterOffset filterLen entries
  have hclosed : (withCrc (footerOf indexOffset indexLen filterOffset filterLen entries)).length
      = footerChecked + crcLen := by rw [length_withCrc, hlen]
  -- the fields, one behind the other
  obtain ⟨tail, htail⟩ : ∃ tail, tail
    = toLeBytes 4 (crc32 (footerOf indexOffset indexLen filterOffset filterLen entries))
      ++ (toLeBytes 4 formatVersion ++ magic) := ⟨_, rfl⟩
  have hsplit : footer = footerOf indexOffset indexLen filterOffset filterLen entries ++ tail := by
    rw [hfooter, htail, footerBytes, withCrc, List.append_assoc, List.append_assoc]
  refine ⟨⟨?_, ?_, ?_⟩, ?_, ?_, ?_, ?_, ?_⟩
  · rw [hfooter]
    refine List.drop_left' ?_
    rw [List.length_append, hclosed, length_toLeBytes]
    decide
  · rw [hfooter, footerBytes, List.append_assoc]
    exact u32At_append _ (hclosed.trans (by decide)) (by decide)
  · rw [hsplit, List.take_left' hlen, htail]
    exact (u32At_append _ hlen (crc32_lt _)).symm
  · rw [hsplit, footerOf, List.append_assoc, List.append_assoc, List.append_assoc,
      List.append_assoc]
    exact @u64At_append [] 0 indexOffset _ rfl hindexOffset
  · rw [hsplit, footerOf, List.append_assoc, List.append_assoc, List.append_assoc,
      List.append_assoc]
    exact u32At_append _ (length_toLeBytes 8 _) hindexLen
  · rw [hsplit, footerOf, List.append_assoc, List.append_assoc, List.append_assoc]
    exact u64At_append _ (by simp) hfilterOffset
  · rw [hsplit, footerOf, List.append_assoc, List.append_assoc]
    exact u32At_append _ (by simp) hfilterLen
  · rw [hsplit, footerOf, List.append_assoc]
    exact u64At_append _ (by simp) hentries

/-- A footer passes its checks and is read back field by field. -/
theorem readFooter_footerBytes (path : Path) (file : Bytes)
    {indexOffset indexLen filterOffset filterLen entries : ℕ}
    (hindexOffset : indexOffset < u64Limit)
    (hindexLen : indexLen < u32Limit) (hfilterOffset : filterOffset < u64Limit)
    (hfilterLen : filterLen < u32Limit) (hentries : entries < u64Limit) :
    SsTable.readFooter path file (footerBytes indexOffset indexLen filterOffset filterLen entries)
      = SsTable.load path file indexOffset indexLen filterOffset filterLen entries := by
  obtain ⟨⟨hmagic, hversion, hcrc⟩, h0, h8, h12, h20, h24⟩ :=
    footerBytes_fields rfl hindexOffset hindexLen hfilterOffset hfilterLen hentries
  unfold SsTable.readFooter
  dsimp only
  rw [if_neg (not_not.mpr hmagic), if_neg (not_not.mpr hversion), if_neg (not_not.mpr hcrc), h0, h8,
    h12, h20, h24]

/-- The table that opening the file of `es` gives. -/
def tableOf (path : Path) (es : List Entry) : SsTable where
  path := path
  file := fileOf es (blocksOf es)
  blocks := blockRefs 0 (blocksOf es)
  filter := filterOf es
  minKey := firstKey es
  maxKey := lastKey es
  entries := es.length
  bytes := (fileOf es (blocksOf es)).length

theorem fits_of_mem_blockRefs {chunks : List (List Entry)} (hfits : ∀ c ∈ chunks, BlockFits c)
    {offset : ℕ} (hsize : offset + (blockBytes chunks).length < u64Limit) {r : BlockRef}
    (hr : r ∈ blockRefs offset chunks) : r.Fits := by
  induction chunks generalizing offset with
  | nil => cases hr
  | cons c chunks ih =>
    obtain ⟨hc, hrest⟩ := List.forall_mem_cons.mp hfits
    have hlen : (blockBytes (c :: chunks)).length
        = (withCrc (records c)).length + (blockBytes chunks).length := List.length_append
    rcases List.mem_cons.mp hr with rfl | hr
    · exact ⟨firstKey_length_lt fun e => hc.fields, by dsimp only; omega, hc⟩
    · exact ih hrest (by omega) hr

theorem length_le_length_blockBytes (chunks : List (List Entry)) :
    chunks.flatten.length ≤ (blockBytes chunks).length := by
  induction chunks with
  | nil => exact Nat.zero_le _
  | cons c chunks ih =>
    have hlen : (blockBytes (c :: chunks)).length
        = (withCrc (records c)).length + (blockBytes chunks).length := List.length_append
    have hrecords := length_le_length_records c
    rw [List.flatten_cons, List.length_append, hlen, length_withCrc]
    omega

theorem Fits.fields {es : List Entry} (h : Fits es) : ∀ e ∈ es, FieldsFit e := by
  intro e he
  rw [← flatten_blocksOf es] at he
  obtain ⟨c, hc, he⟩ := List.mem_flatten.mp he
  exact (h.blocks c hc).fields he

/-- Opening the file of a table gives the table. -/
theorem openFile_fileOf (path : Path) {es : List Entry} (hfits : Fits es)
    (hsize : (fileOf es (blocksOf es)).length < u64Limit) :
    SsTable.openFile path (fileOf es (blocksOf es)) = .ok (tableOf path es) := by
  set blocks := blockBytes (blocksOf es) with hblocks
  set filter := withCrc (filterOf es).data with hfilter
  set index := withCrc (indexOf es (blockRefs 0 (blocksOf es))) with hindex
  set footer := footerBytes (blocks.length + filter.length) index.length blocks.length filter.length
    es.length with hfooter
  have hfile : fileOf es (blocksOf es) = blocks ++ filter ++ index ++ footer := rfl
  have hlen : (fileOf es (blocksOf es)).length
      = blocks.length + filter.length + index.length + footerLen := by
    rw [hfile, List.length_append, List.length_append, List.length_append, hfooter,
      length_footerBytes]
  have hentries : es.length ≤ blocks.length := by
    have := length_le_length_blockBytes (blocksOf es)
    rwa [flatten_blocksOf] at this
  have hrefs : ∀ r ∈ blockRefs 0 (blocksOf es), r.Fits := fun r =>
    fits_of_mem_blockRefs hfits.blocks (by rw [← hblocks]; omega)
  have hread : readExactAt (fileOf es (blocksOf es)) path
      ((fileOf es (blocksOf es)).length - footerLen) footerLen = .ok footer := by
    rw [hlen, hfile]
    have := @readExactAt_append (blocks ++ filter ++ index) footer [] path _ footerLen rfl
      (length_footerBytes _ _ _ _ _)
    rw [List.append_nil, List.length_append, List.length_append] at this
    exact this
  have hindexRead : readChecked (fileOf es (blocksOf es)) path (blocks.length + filter.length)
      index.length = .ok (indexOf es (blockRefs 0 (blocksOf es))) := by
    have := readChecked_append (blocks ++ filter)
      (indexOf es (blockRefs 0 (blocksOf es))) footer path
    rwa [List.length_append, ← List.append_assoc] at this
  have hfilterRead : readChecked (fileOf es (blocksOf es)) path blocks.length filter.length
      = .ok (filterOf es).data := by
    have := readChecked_append blocks (filterOf es).data (index ++ footer) path
    rwa [← List.append_assoc, ← List.append_assoc] at this
  have hindexFits : index.length < u32Limit := hfits.index
  have hfilterFits : filter.length < u32Limit := hfits.filter
  have hdecode : Bloom.decode (filterOf es).data = some (filterOf es) := Bloom.decode_build _ _
  -- the steps of `openFile` in order: the footer, its bounds, the index, the filter
  unfold SsTable.openFile
  rw [if_neg (by omega), hread, ok_bind,
    readFooter_footerBytes path _ (by omega) hindexFits (by omega) hfilterFits (by omega),
    SsTable.load]
  dsimp only
  rw [if_neg, hindexRead, hfilterRead]
  · simp only [bind, Except.bind, parseIndex_indexOf hfits.fields hrefs, hdecode]
    rfl
  · rw [Nat.mod_eq_of_lt (by omega), Nat.mod_eq_of_lt (by omega)]
    omega

/-! ### One block of the file -/

theorem length_blockRefs (offset : ℕ) (chunks : List (List Entry)) :
    (blockRefs offset chunks).length = chunks.length := by
  induction chunks generalizing offset with
  | nil => rfl
  | cons c chunks ih => rw [blockRefs, List.length_cons, ih, List.length_cons]

section

variable {es c : List Entry} {before behind : List (List Entry)}

theorem getElem?_blockRefs (h : blocksOf es = before ++ c :: behind) :
    (blockRefs 0 (blocksOf es))[before.length]?
      = some ⟨firstKey c, (blockBytes before).length, (withCrc (records c)).length⟩ := by
  rw [h, blockRefs_append, List.getElem?_append_right (length_blockRefs 0 before).le,
    length_blockRefs, Nat.sub_self, Nat.zero_add]
  rfl

/-- The index leads to the block. -/
theorem readChecked_block (path : Path) (h : blocksOf es = before ++ c :: behind) :
    readChecked (fileOf es (blocksOf es)) path (blockBytes before).length
      (withCrc (records c)).length = .ok (records c) := by
  obtain ⟨post, hpost⟩ : ∃ post, fileOf es (blocksOf es) = blockBytes (blocksOf es) ++ post := by
    unfold fileOf
    simp only [List.append_assoc]
    exact ⟨_, rfl⟩
  have hblocks : blockBytes (blocksOf es)
      = blockBytes before ++ (withCrc (records c) ++ blockBytes behind) := by
    rw [h, blockBytes_append]
    rfl
  rw [hpost, hblocks, List.append_assoc, List.append_assoc]
  exact readChecked_append _ _ _ path

/-! ### The scan -/

/-- The scan of a table that stands before `current` in a block, with the blocks `behind` to
come. -/
def scanAt (path : Path) (es : List Entry) (taken : ℕ) (read : Bytes)
    (current : List Entry) : Scan :=
  ⟨tableOf path es, taken, read ++ records current, read.length, false⟩

theorem next_scanAt (path : Path) (taken : ℕ) (read : Bytes) (current : List Entry) :
    (scanAt path es taken read current).next
      = Scan.loop ((blocksOf es).length - taken + 1) (scanAt path es taken read current) := by
  have hlen : (scanAt path es taken read current).table.blocks.length = (blocksOf es).length :=
    length_blockRefs 0 (blocksOf es)
  rw [Scan.next, hlen]
  rfl

theorem next_scanAt_cons (path : Path) {taken : ℕ} (read : Bytes) {e : Entry} (hfits : FieldsFit e)
    (hseq : e.seq < u64Limit) (current : List Entry) :
    (scanAt path es taken read (e :: current)).next
      = (some (.ok e), scanAt path es taken (read ++ record e) current) := by
  have hcons : records (e :: current) = record e ++ records current := rfl
  have hpos := List.length_pos_iff.mpr (record_ne_nil e)
  have hlt : read.length < (read ++ records (e :: current)).length := by
    rw [List.length_append, hcons, List.length_append]
    omega
  have htake : takeRecord ((read ++ records (e :: current)).drop read.length)
      = some (e, records current) := by
    rw [List.drop_left]
    exact takeRecord_append hfits hseq _
  have hoffset : (read ++ records (e :: current)).length - (records current).length
      = (read ++ record e).length := by
    rw [hcons, ← List.append_assoc, List.length_append]
    omega
  rw [next_scanAt, scanAt, Scan.loop, if_pos hlt]
  dsimp only
  rw [htake]
  dsimp only
  rw [hoffset, hcons, ← List.append_assoc]
  rfl

/-- At the end of a block the scan takes the next one. -/
theorem next_scanAt_nil (path : Path) (h : blocksOf es = before ++ c :: behind) (read : Bytes) :
    (scanAt path es before.length read []).next
      = (scanAt path es (before.length + 1) [] c).next := by
  have hlen : (blocksOf es).length = before.length + behind.length + 1 := by
    rw [h, List.length_append, List.length_cons]
    omega
  have hfuel : (blocksOf es).length - (before.length + 1) + 1
      = (blocksOf es).length - before.length := by omega
  have hnot : ¬ read.length < (read ++ records []).length := by simp [records]
  rw [next_scanAt, next_scanAt, hfuel, scanAt, Scan.loop, if_neg hnot]
  dsimp only
  rw [show (tableOf path es).blocks[before.length]? = _ from getElem?_blockRefs h]
  dsimp only
  rw [show readChecked (tableOf path es).file (tableOf path es).path _ _ = _ from
    readChecked_block path h]
  rfl

theorem next_scanAt_end (path : Path) (read : Bytes) :
    (scanAt path es (blocksOf es).length read []).next
      = (none, scanAt path es (blocksOf es).length read []) := by
  have hnot : ¬ read.length < (read ++ records []).length := by simp [records]
  have hnone : (tableOf path es).blocks[(blocksOf es).length]? = none :=
    List.getElem?_eq_none (length_blockRefs 0 (blocksOf es)).le
  rw [next_scanAt, scanAt, Scan.loop, if_neg hnot]
  dsimp only
  rw [hnone]

/-- What the scan yields from some point on: the entries left in the block and those of the blocks
to come. -/
theorem yields_scanAt (path : Path) (hfits : ∀ e ∈ es, FieldsFit e)
    (hseq : ∀ e ∈ es, e.seq < u64Limit)
    (behind before : List (List Entry)) (hblocks : blocksOf es = before ++ behind) (read : Bytes)
    (current : List Entry) (hcurrent : ∀ e ∈ current, e ∈ es) :
    Yields Scan.next (scanAt path es before.length read current)
      ((current ++ behind.flatten).map .ok) := by
  induction behind generalizing before read current with
  | nil =>
    induction current generalizing read with
    | nil =>
      rw [List.append_nil] at hblocks
      rw [← hblocks]
      exact Yields.of_eq (next_scanAt_end path read)
    | cons e current ih =>
      obtain ⟨he, hrest⟩ := List.forall_mem_cons.mp hcurrent
      exact Yields.item (next_scanAt_cons path read (hfits e he) (hseq e he) current) (ih _ hrest)
  | cons c behind ih =>
    induction current generalizing read with
    | nil =>
      have hc : ∀ e ∈ c, e ∈ es := fun e he => by
        rw [← flatten_blocksOf es, hblocks]
        exact List.mem_flatten.mpr ⟨c, by simp, he⟩
      have hnext := ih (before ++ [c]) (by rw [hblocks]; simp) [] c hc
      rw [List.length_append, List.length_singleton] at hnext
      exact Yields.congr (next_scanAt_nil path hblocks read) hnext
    | cons e current ih' =>
      obtain ⟨he, hrest⟩ := List.forall_mem_cons.mp hcurrent
      exact Yields.item (next_scanAt_cons path read (hfits e he) (hseq e he) current) (ih' _ hrest)

end

/-- **A scan of a table yields its entries**, in order. -/
theorem yields_scan (path : Path) {es : List Entry} (hfits : Fits es)
    (hseq : ∀ e ∈ es, e.seq < u64Limit) :
    Yields Scan.next (tableOf path es).scan (es.map .ok) := by
  have h := yields_scanAt path hfits.fields hseq (blocksOf es) [] rfl [] [] (by simp)
  rwa [List.nil_append, flatten_blocksOf] at h

/-! ### Lookups -/

/-- The keys of a block start with its first key. -/
theorem firstKey_le {c : List Entry} (hsorted : c.Pairwise fun e f => e.key < f.key) {e : Entry}
    (he : e ∈ c) : firstKey c ≤ e.key := by
  cases c with
  | nil => cases he
  | cons f c =>
    rcases List.mem_cons.mp he with rfl | he
    · exact le_rfl
    · exact ((List.pairwise_cons.mp hsorted).1 e he).le

theorem le_lastKey {c : List Entry} (hsorted : c.Pairwise fun e f => e.key < f.key) {e : Entry}
    (he : e ∈ c) : e.key ≤ lastKey c := by
  cases c using List.reverseRecOn with
  | nil => cases he
  | append_singleton c f =>
    rw [lastKey_concat]
    rcases List.mem_append.mp he with he | he
    · exact ((List.pairwise_append.mp hsorted).2.2 e he f (List.mem_singleton_self f)).le
    · rw [List.mem_singleton.mp he]

theorem exists_mem_firstKey {c : List Entry} (hne : c ≠ []) : ∃ e ∈ c, e.key = firstKey c := by
  cases c with
  | nil => exact absurd rfl hne
  | cons e c => exact ⟨e, List.mem_cons_self, rfl⟩

theorem exists_mem_lastKey {c : List Entry} (hne : c ≠ []) : ∃ e ∈ c, e.key = lastKey c := by
  cases c using List.reverseRecOn with
  | nil => exact absurd rfl hne
  | append_singleton c e => exact ⟨e, by simp, (lastKey_concat c e).symm⟩

theorem ne_nil_of_mem_cutBlocks {pending es c : List Entry} (hc : c ∈ (cutBlocks pending es).1) :
    c ≠ [] := by
  induction es generalizing pending with
  | nil => cases hc
  | cons e es ih =>
    unfold cutBlocks at hc
    split_ifs at hc
    · rcases List.mem_cons.mp hc with rfl | hc
      · simp
      · exact ih hc
    · exact ih hc

/-- No block is empty. -/
theorem ne_nil_of_mem_blocksOf {es c : List Entry} (hc : c ∈ blocksOf es) : c ≠ [] := by
  rcases List.mem_append.mp hc with hc | hc
  · exact ne_nil_of_mem_cutBlocks hc
  · obtain ⟨hne, rfl⟩ := mem_lastBlock.mp hc
    exact hne

/-- Blocks whose keys follow each other are split by a key into those that start at or before it and
those that start behind it. -/
theorem exists_split {chunks : List (List Entry)} (hne : ∀ c ∈ chunks, c ≠ [])
    (hsorted : chunks.flatten.Pairwise fun e f => e.key < f.key) (key : Bytes) :
    ∃ before behind, chunks = before ++ behind ∧ (∀ c ∈ before, firstKey c ≤ key)
      ∧ ∀ c ∈ behind, key < firstKey c := by
  induction chunks with
  | nil => exact ⟨[], [], rfl, by simp, by simp⟩
  | cons c chunks ih =>
    obtain ⟨hc, hrest⟩ := List.forall_mem_cons.mp hne
    obtain ⟨-, hsorted', hcross⟩ := List.pairwise_append.mp (List.flatten_cons ▸ hsorted)
    by_cases hle : firstKey c ≤ key
    · obtain ⟨before, behind, rfl, hbefore, hbehind⟩ := ih hrest hsorted'
      exact ⟨c :: before, behind, rfl, List.forall_mem_cons.mpr ⟨hle, hbefore⟩, hbehind⟩
    · refine ⟨[], c :: chunks, rfl, by simp, List.forall_mem_cons.mpr ⟨not_le.mp hle, ?_⟩⟩
      intro c' hc'
      obtain ⟨e, he, hkey⟩ := exists_mem_firstKey hc
      obtain ⟨e', he', hkey'⟩ := exists_mem_firstKey (hrest c' hc')
      rw [← hkey']
      rw [← hkey] at hle
      exact (not_le.mp hle).trans (hcross e he e' (List.mem_flatten.mpr ⟨c', hc', he'⟩))

/-- The search in the index finds the last block that starts at or before the key. -/
theorem partitionPoint_blockRefs {before behind : List (List Entry)} {key : Bytes}
    (hbefore : ∀ c ∈ before, firstKey c ≤ key) (hbehind : ∀ c ∈ behind, key < firstKey c) :
    partitionPoint (fun block => decide (block.firstKey ≤ key)) (blockRefs 0 (before ++ behind))
      = before.length := by
  rw [blockRefs_append, ← length_blockRefs 0 before]
  refine partitionPoint_append (fun r hr => ?_) fun r hr => ?_
  · obtain ⟨c, hc, hkey⟩ := exists_of_mem_blockRefs hr
    rw [decide_eq_true_iff, hkey]
    exact hbefore c hc
  · obtain ⟨c, hc, hkey⟩ := exists_of_mem_blockRefs hr
    rw [decide_eq_false_iff_not, hkey, not_le]
    exact hbehind c hc

theorem find?_eq_none_of_ne {es : List Entry} {key : Bytes} (h : ∀ e ∈ es, e.key ≠ key) :
    es.find? (fun e => e.key = key) = none := by
  rw [List.find?_eq_none]
  intro e he
  simpa using h e he

/-- Only the block that starts last at or before a key can hold it. -/
theorem find?_of_split {before behind : List (List Entry)} {c : List Entry} {key : Bytes}
    (hsorted : (before ++ c :: behind).flatten.Pairwise fun e f => e.key < f.key) (hne : c ≠ [])
    (hc : firstKey c ≤ key) (hbehind : ∀ c ∈ behind, key < firstKey c) :
    (before ++ c :: behind).flatten.find? (fun e => e.key = key)
      = c.find? fun e => e.key = key := by
  rw [List.flatten_append, List.flatten_cons] at hsorted ⊢
  obtain ⟨-, hright, hcross⟩ := List.pairwise_append.mp hsorted
  obtain ⟨-, hrest, -⟩ := List.pairwise_append.mp hright
  have hleft : before.flatten.find? (fun e => e.key = key) = none := by
    refine find?_eq_none_of_ne fun e he => ?_
    obtain ⟨f, hf, hkey⟩ := exists_mem_firstKey hne
    have hlt := hcross e he f (List.mem_append_left _ hf)
    rw [hkey] at hlt
    exact (hlt.trans_le hc).ne
  have hlast : behind.flatten.find? (fun e => e.key = key) = none := by
    refine find?_eq_none_of_ne fun e he => ?_
    obtain ⟨c', hc', he⟩ := List.mem_flatten.mp he
    have hsorted' := hrest.sublist (List.sublist_flatten_of_mem hc')
    exact ((hbehind c' hc').trans_le (firstKey_le hsorted' he)).ne'
  rw [List.find?_append, hleft, Option.none_or, List.find?_append, hlast, Option.or_none]

/-- **A lookup in a table** answers as its entries do: the range, the filter and the index hide no
entry. -/
theorem get_tableOf (path : Path) {es : List Entry} (hfits : Fits es)
    (hseq : ∀ e ∈ es, e.seq < u64Limit) (hsorted : es.Pairwise fun e f => e.key < f.key)
    (key : Bytes) :
    (tableOf path es).get key = .ok (Lookup.ofEntry (es.find? fun e => e.key = key)) := by
  unfold SsTable.get
  split_ifs with hrange hfilter
  · rw [find?_eq_none_of_ne]
    · rfl
    · rintro e he rfl
      rcases hrange with h | h
      · exact absurd h (not_lt.mpr (firstKey_le hsorted he))
      · exact absurd h (not_lt.mpr (le_lastKey hsorted he))
  · rw [find?_eq_none_of_ne]
    · rfl
    · rintro e he rfl
      have hmem : Bloom.hash e.key ∈ es.map fun e => Bloom.hash e.key := List.mem_map_of_mem he
      have hmay : (filterOf es).mayContain e.key = true := Bloom.mayContainHash_build _ hmem
      rw [show (tableOf path es).filter = filterOf es from rfl, hmay] at hfilter
      exact Bool.false_ne_true hfilter
  · have hflat := flatten_blocksOf es
    obtain ⟨before, behind, hsplit, hbefore, hbehind⟩ := exists_split
      (fun c => ne_nil_of_mem_blocksOf) (hflat.symm ▸ hsorted) key
    have hpoint :
        partitionPoint (fun block => decide (block.firstKey ≤ key)) (tableOf path es).blocks
        = before.length := by
      change partitionPoint _ (blockRefs 0 (blocksOf es)) = _
      rw [hsplit]
      exact partitionPoint_blockRefs hbefore hbehind
    dsimp only
    rw [hpoint]
    cases before using List.reverseRecOn with
    | nil =>
      -- no block starts at or before the key
      rw [if_pos List.length_nil, find?_eq_none_of_ne]
      · rfl
      · intro e he
        rw [← hflat, hsplit] at he hsorted
        obtain ⟨c, hc, he⟩ := List.mem_flatten.mp he
        have hsorted' := hsorted.sublist (List.sublist_flatten_of_mem hc)
        exact ((hbehind c hc).trans_le (firstKey_le hsorted' he)).ne'
    | append_singleton before c =>
      rw [List.append_assoc, List.singleton_append] at hsplit
      have hc : c ∈ blocksOf es := by simp [hsplit]
      have hmem : ∀ e ∈ c, e ∈ es := fun e he => by
        rw [← hflat]
        exact List.mem_flatten.mpr ⟨c, hc, he⟩
      have hsortedc : c.Pairwise fun e f => e.key < f.key := by
        rw [← hflat] at hsorted
        exact hsorted.sublist (List.sublist_flatten_of_mem hc)
      have hscan := scanBlock_records (fun e he => hfits.fields e (hmem e he))
        (fun e he => hseq e (hmem e he)) hsortedc key (length_le_length_records c)
      rw [← hflat, hsplit] at hsorted
      have hfind := find?_of_split hsorted (ne_nil_of_mem_blocksOf hc)
        (hbefore c (by simp)) hbehind
      rw [← hsplit, hflat] at hfind
      rw [List.length_append, List.length_singleton, if_neg (Nat.succ_ne_zero _),
        Nat.add_sub_cancel,
        show (tableOf path es).blocks[before.length]? = _ from getElem?_blockRefs hsplit]
      dsimp only
      rw [show readChecked (tableOf path es).file (tableOf path es).path _ _ = _ from
        readChecked_block path hsplit, ok_bind, hscan, hfind]

/-- **What is written is read back.**  Of entries in strictly increasing key order a table is made
whose scan yields exactly these entries, whose range is that of the entries, and whose lookups
answer every key as the entries do. -/
theorem openFile_writeTable {es : List Entry} {file : Bytes} (path : Path)
    (hsorted : es.Pairwise fun e f => e.key < f.key) (hseq : ∀ e ∈ es, e.seq < u64Limit)
    (hwrite : writeTable es = .ok file) (hsize : file.length < u64Limit) :
    ∃ t, SsTable.openFile path file = .ok t ∧ Yields Scan.next t.scan (es.map .ok)
      ∧ t.entries = es.length ∧ t.minKey = (es.head?.map Version.key).getD []
      ∧ t.maxKey = (es.getLast?.map Version.key).getD []
      ∧ ∀ key, t.get key = .ok (Lookup.ofEntry (es.find? fun e => e.key = key)) := by
  obtain ⟨hfits, rfl⟩ := (decides_writeTable es).of_eq_ok hwrite
  exact ⟨tableOf path es, openFile_fileOf path hfits hsize, yields_scan path hfits hseq,
    rfl, rfl, rfl, get_tableOf path hfits hseq hsorted⟩

/-- A value and a tombstone. -/
def twoEntries : List Entry := [⟨[1], 1, some [2]⟩, ⟨[3], 2, none⟩]

theorem fits_twoEntries : Fits twoEntries where
  blocks := by
    change ∀ c ∈ blocksOf twoEntries, (withCrc (records c)).length < u32Limit
    decide +kernel
  filter := by decide +kernel
  index := by decide +kernel

theorem openFile_writeTable_twoEntries :
    ∃ file t, writeTable twoEntries = .ok file ∧ SsTable.openFile (.table 1) file = .ok t
      ∧ t.get [1] = .ok (.found [2]) ∧ t.get [3] = .ok .deleted ∧ t.get [2] = .ok .missing := by
  have hwrite := (decides_writeTable twoEntries).ok fits_twoEntries
  have hsize : (fileOf twoEntries (blocksOf twoEntries)).length < u64Limit := by
    rw [length_fileOf]
    decide +kernel
  obtain ⟨t, hopen, -, -, -, -, hget⟩ :=
    openFile_writeTable (.table 1) (by decide) (by decide) hwrite hsize
  exact ⟨_, t, hwrite, hopen, hget [1], hget [3], hget [2]⟩

end Lsmkv.Sst
