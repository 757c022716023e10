import Lsmkv.Compaction.Merge
import Lsmkv.Sstable.RoundTrip

/-!
# The scan of any table (`Scan`)

Whatever the file holds, a scan ends: every item takes bytes off a block, and an error is the last
item (`yields_source`).  So a table is a source for a merge: the entries its scan yields and perhaps
the error it ends in (`SsTable.source`).
-/

namespace Lsmkv.Sst

/-! ### What a record that was read looks like -/

/-- A record that is read is one the writer would have written. -/
theorem takeRecord_eq_some {cursor rest : Bytes} {e : Entry}
    (h : takeRecord cursor = some (e, rest)) :
    cursor = record e ++ rest ∧ FieldsFit e ∧ e.seq < u64Limit := by
  simp only [takeRecord, Option.bind_eq_bind, Option.bind_eq_some_iff, Prod.exists] at h
  obtain ⟨seq, c₁, hseq, kind, c₂, hkind, key, c₃, hkey, h⟩ := h
  obtain ⟨rfl, hseqLt⟩ := takeU64_eq_some hseq
  obtain rfl := takeU8_eq_some hkind
  obtain ⟨rfl, hkeyLt⟩ := takeField_eq_some hkey
  split_ifs at h with hset hdelete
  · simp only [Option.bind_eq_some_iff, Prod.exists, Option.some.injEq, Prod.mk.injEq] at h
    obtain ⟨value, c₄, hvalue, rfl, rfl⟩ := h
    obtain ⟨rfl, hvalueLt⟩ := takeField_eq_some hvalue
    refine ⟨?_, ⟨hkeyLt, fun v hv => ?_⟩, hseqLt⟩
    · rw [hset]
      simp [record, field]
    · obtain rfl := Option.some.inj hv
      exact hvalueLt
  · obtain ⟨rfl, rfl⟩ := Prod.mk.inj (Option.some.inj h)
    refine ⟨?_, ⟨hkeyLt, fun v hv => by cases hv⟩, hseqLt⟩
    rw [hdelete]
    simp [record, field]

theorem length_lt_of_takeRecord {cursor rest : Bytes} {e : Entry}
    (h : takeRecord cursor = some (e, rest)) : rest.length < cursor.length := by
  rw [(takeRecord_eq_some h).1, List.length_append]
  have := List.length_pos_iff.mpr (record_ne_nil e)
  omega

theorem length_le_of_readChecked {file bytes : Bytes} {path : Path} {offset len : ℕ}
    (h : readChecked file path offset len = .ok bytes) : bytes.length ≤ len := by
  unfold readChecked at h
  split_ifs at h with hshort
  obtain ⟨read, -, h⟩ := bind_eq_ok h
  dsimp only at h
  split_ifs at h with hcrc
  obtain rfl := Except.ok.inj h
  rw [List.length_take]
  omega

/-- What opening the parts of a file behind its footer found. -/
theorem load_eq_ok {path : Path} {file : Bytes}
    {indexOffset indexLen filterOffset filterLen entries : ℕ} {t : SsTable}
    (h : SsTable.load path file indexOffset indexLen filterOffset filterLen entries = .ok t) :
    ¬(file.length - footerLen < (indexOffset + indexLen) % u64Limit
        ∨ file.length - footerLen < (filterOffset + filterLen) % u64Limit)
      ∧ ∃ index, readChecked file path indexOffset indexLen = .ok index
        ∧ ∃ minKey maxKey blocks, parseIndex index = some (minKey, maxKey, blocks)
          ∧ ∃ bytes, readChecked file path filterOffset filterLen = .ok bytes
            ∧ ∃ filter, Bloom.decode bytes = some filter
              ∧ t = ⟨path, file, blocks, filter, minKey, maxKey, entries, file.length⟩ := by
  unfold SsTable.load at h
  dsimp only at h
  split_ifs at h with hpast
  obtain ⟨index, hindex, h⟩ := bind_eq_ok h
  refine ⟨hpast, index, hindex, ?_⟩
  cases hparse : parseIndex index with
  | none =>
    rw [hparse] at h
    cases h
  | some parsed =>
    obtain ⟨minKey, maxKey, blocks⟩ := parsed
    rw [hparse] at h
    dsimp only at h
    rw [ok_bind] at h
    obtain ⟨bytes, hbytes, h⟩ := bind_eq_ok h
    refine ⟨minKey, maxKey, blocks, rfl, bytes, hbytes, ?_⟩
    cases hdecode : Bloom.decode bytes with
    | none =>
      rw [hdecode] at h
      cases h
    | some filter =>
      rw [hdecode] at h
      exact ⟨filter, rfl, (Except.ok.inj h).symm⟩

/-! ### A scan ends -/

namespace Scan

/-- Bytes of the blocks the scan has not consumed. -/
def left (s : Scan) : ℕ :=
  (s.buffer.length - s.offset) + ((s.table.blocks.drop s.nextBlock).map BlockRef.len).sum

/-- What a call can do: find the end, fail for good, or take a record. -/
theorem loop_cases {fuel : ℕ} {s : Scan} (hfailed : s.failed = false) (hpos : 0 < fuel)
    (hfuel : s.table.blocks.length < s.nextBlock + fuel) :
    (∃ s', loop fuel s = (none, s') ∧ next s' = (none, s'))
      ∨ (∃ err s', loop fuel s = (some (.error err), s') ∧ s'.failed = true)
      ∨ ∃ e s', loop fuel s = (some (.ok e), s') ∧ s'.failed = false ∧ s'.left < s.left
        ∧ e.seq < u64Limit := by
  induction fuel generalizing s with
  | zero => omega
  | succ fuel ih =>
    rw [loop]
    split_ifs with hmore
    · -- a record of the block in the buffer
      cases htake : takeRecord (s.buffer.drop s.offset) with
      | none => exact Or.inr (Or.inl ⟨_, _, rfl, rfl⟩)
      | some taken =>
        obtain ⟨e, cursor⟩ := taken
        have hlt := length_lt_of_takeRecord htake
        rw [List.length_drop] at hlt
        refine Or.inr (Or.inr ⟨e, _, rfl, hfailed, ?_, (takeRecord_eq_some htake).2.2⟩)
        unfold left
        dsimp only
        omega
    · cases hblock : s.table.blocks[s.nextBlock]? with
      | none =>
        refine Or.inl ⟨s, rfl, ?_⟩
        rw [next, hfailed, if_neg Bool.false_ne_true, loop, if_neg hmore, hblock]
      | some block =>
        dsimp only
        have hlt := (List.getElem?_eq_some_iff.mp hblock).1
        cases hread : readChecked s.table.file s.table.path block.offset block.len with
        | error err => exact Or.inr (Or.inl ⟨_, _, rfl, rfl⟩)
        | ok bytes =>
          -- the bytes of the block pass from the blocks to come into the buffer
          have hdrop : ((s.table.blocks.drop s.nextBlock).map BlockRef.len).sum
              = block.len + ((s.table.blocks.drop (s.nextBlock + 1)).map BlockRef.len).sum := by
            obtain ⟨_, hget⟩ := List.getElem?_eq_some_iff.mp hblock
            rw [List.drop_eq_getElem_cons hlt, hget, List.map_cons, List.sum_cons]
          have hlen := length_le_of_readChecked hread
          have hrest := @ih { s with nextBlock := s.nextBlock + 1, buffer := bytes, offset := 0 }
            hfailed (by omega) (by dsimp only; omega)
          rcases hrest with hrest | hrest | ⟨e, s', heq, hok, hleft, hseq⟩
          · exact Or.inl hrest
          · exact Or.inr (Or.inl hrest)
          · refine Or.inr (Or.inr ⟨e, s', heq, hok, hleft.trans_le ?_, hseq⟩)
            unfold left
            dsimp only
            omega

theorem next_cases {s : Scan} (hfailed : s.failed = false) :
    (∃ s', next s = (none, s') ∧ next s' = (none, s'))
      ∨ (∃ err s', next s = (some (.error err), s') ∧ s'.failed = true)
      ∨ ∃ e s', next s = (some (.ok e), s') ∧ s'.failed = false ∧ s'.left < s.left
        ∧ e.seq < u64Limit := by
  rw [next, hfailed, if_neg Bool.false_ne_true]
  exact loop_cases hfailed (Nat.succ_pos _) (by omega)

theorem exhausted_of_failed {s : Scan} (h : s.failed = true) : Exhausted next s :=
  exhausted_of_eq (by rw [next, if_pos h])

/-- **A scan ends**, whatever the file holds. -/
theorem exists_yields_scan (s : Scan) :
    ∃ l, Yields next s l ∧ l.length ≤ if s.failed then 0 else s.left + 1 := by
  refine @exists_yields _ _ next (fun s => if s.failed then 0 else s.left + 1) (fun s => ?_) s
  cases hfailed : s.failed with
  | true => exact Or.inl (exhausted_of_failed hfailed)
  | false =>
    rcases next_cases hfailed with ⟨s', h, h'⟩ | ⟨err, s', h, hfail⟩ | ⟨e, s', h, hok, hlt, -⟩
    · exact Or.inl (Exhausted.of_next h (exhausted_of_eq h'))
    · refine Or.inr ⟨_, s', h, ?_⟩
      rw [hfail, if_pos rfl, if_neg Bool.false_ne_true]
      exact Nat.succ_pos _
    · refine Or.inr ⟨_, s', h, ?_⟩
      rw [hok, if_neg Bool.false_ne_true, if_neg Bool.false_ne_true]
      omega

end Scan

/-! ### A table as a source -/

/-- The scan of a table, as a merge takes it. -/
def SsTable.source (t : SsTable) : Source :=
  .ofItems (drainIter Scan.next (t.scan.left + 1) t.scan)

/-- A scan yields entries and perhaps an error behind them. -/
theorem items_ofItems {s : Scan} {l : List (Except Error Entry)} (h : Yields Scan.next s l)
    (hfailed : s.failed = false) : (Source.ofItems l).items = l
      ∧ ∀ e ∈ (Source.ofItems l).entries, e.seq < u64Limit := by
  induction h with
  | done => exact ⟨rfl, by simp [Source.ofItems]⟩
  | @item s s' a l hitem hrest ih =>
    rcases Scan.next_cases hfailed with ⟨t, ht, -⟩ | ⟨err, t, ht, hfail⟩ | ⟨e, t, ht, hok, -, hseq⟩
    · rw [hitem] at ht
      cases ht
    · rw [hitem] at ht
      obtain ⟨ha, rfl⟩ := Prod.mk.inj ht
      obtain rfl := Option.some.inj ha
      rw [hrest.eq_nil (Scan.exhausted_of_failed hfail)]
      exact ⟨rfl, by simp [Source.ofItems]⟩
    · rw [hitem] at ht
      obtain ⟨ha, rfl⟩ := Prod.mk.inj ht
      obtain rfl := Option.some.inj ha
      obtain ⟨hitems, hseqs⟩ := ih hok
      exact ⟨congrArg (Except.ok e :: ·) hitems, List.forall_mem_cons.mpr ⟨hseq, hseqs⟩⟩

/-- **The scan of a table** yields what its source says. -/
theorem yields_source (t : SsTable) : Yields Scan.next t.scan t.source.items
    ∧ ∀ e ∈ t.source.entries, e.seq < u64Limit := by
  obtain ⟨l, hl, hlen⟩ := Scan.exists_yields_scan t.scan
  obtain ⟨hitems, hseq⟩ := items_ofItems hl rfl
  have hsource : t.source = .ofItems l := congrArg Source.ofItems (drainIter_eq hl hlen)
  rw [hsource]
  exact ⟨hitems.symm ▸ hl, hseq⟩

/-- The source of a table whose scan yields entries only. -/
theorem source_eq {t : SsTable} {es : List Entry} (h : Yields Scan.next t.scan (es.map .ok)) :
    t.source = ⟨es, none⟩ := by
  obtain ⟨l, hl, hlen⟩ := Scan.exists_yields_scan t.scan
  have hsource : t.source = .ofItems l := congrArg Source.ofItems (drainIter_eq hl hlen)
  rw [hsource, hl.unique h, Source.ofItems_map_ok]

end Lsmkv.Sst
