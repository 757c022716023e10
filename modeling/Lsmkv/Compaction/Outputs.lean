import Lsmkv.Compaction.Failure
import Lsmkv.Compaction.WriteMerged
import Lsmkv.Sstable.Scan

/-!
# The files a compaction writes (`Shared::write_merged`, `Shared::seal`)

The loop of `write_merged` on the bytes of the tables: the inputs are scanned and merged, an output
is opened for the first entry that is kept, and it is finished and opened for reading once it has
written enough bytes.  Any of these can fail, and the loop stops then.

When it succeeds, the outputs are the tables of the runs that `Lsmkv.Compaction.WriteMerged` cuts
the merged stream into, and when it fails on inputs that can be read to their ends, a length of one
of these tables does not fit its field (`writeLoop_ends`, `writeMerged_cases`).
-/

namespace Lsmkv.Sst

/-- A file the store holds, with what the manifest knows about it. -/
structure Table where
  file : FileMeta
  table : SsTable
  deriving DecidableEq, Repr

/-- `meta_of`. -/
def metaOf (number level : ℕ) (t : SsTable) : FileMeta :=
  ⟨number, level, t.minKey, t.maxKey, t.bytes, t.entries⟩

/-- Closes an output file and opens it back for reading. -/
def sealOutput (number level : ℕ) (w : Writer) : Except Error Table := do
  let file ← w.finish
  let t ← SsTable.openFile (.table number) file
  .ok ⟨metaOf number level t, t⟩

/-- The loop of `write_merged` over the entries of the merge, with the output that is open and the
next file number. -/
def writeLoop (snapshot : Snapshot) (level target : ℕ) :
    List (Except Error Entry) → Option (ℕ × Writer) → ℕ → Except Error (List Table) × ℕ
  | [], none, next => (.ok [], next)
  | [], some (number, w), next => ((sealOutput number level w).map ([·]), next)
  | .error err :: _, _, next => (.error err, next)
  | .ok e :: items, output, next =>
    if e.value = none ∧ ¬ Compaction.tombstoneNeeded snapshot level e.key then
      writeLoop snapshot level target items output next
    else
      let (number, w) := output.getD (next, Writer.create)
      let next := if output.isSome then next else next + 1
      match w.add e with
      | .error err => (.error err, next)
      | .ok w =>
        if target ≤ w.bytesWritten then
          match sealOutput number level w with
          | .error err => (.error err, next)
          | .ok t =>
            let (rest, next) := writeLoop snapshot level target items none next
            (rest.map (t :: ·), next)
        else writeLoop snapshot level target items (some (number, w)) next

/-- Merges the plan's inputs into files of bounded size at the level below. -/
def writeMerged (snapshot : Snapshot) (plan : Plan) (target : ℕ)
    (inputs : List SsTable) (next : ℕ) : Except Error (List Table) × ℕ :=
  let m := Merge.new (inputs.map SsTable.source)
  writeLoop snapshot plan.outputLevel target (drainIter Merge.next (m.size + 1) m) none next

/-! ### One output -/

/-- A writer is followed by the one that keeps only lengths. -/
theorem lengths_of_addAll {es : List Entry} {w : Writer} (h : Writer.create.addAll es = .ok w) :
    lengths w = es.foldl Lsmkv.Writer.add Lsmkv.Writer.create := by
  obtain ⟨-, rfl⟩ := (decides_addAll [] [] es).of_eq_ok h
  exact (lengths_addAll [] [] es).symm

/-- A table whose lengths fit is far from the largest file there can be: it has fewer blocks than
bytes in its index. -/
theorem length_fileOf_lt {es : List Entry} (h : Fits es) :
    (fileOf es (blocksOf es)).length < 2 ^ 61 := by
  have hblocks : ∀ {chunks : List (List Entry)}, (∀ c ∈ chunks, BlockFits c) →
      (blockBytes chunks).length ≤ chunks.length * u32Limit := by
    intro chunks hchunks
    rw [blockBytes, List.length_flatMap, ← smul_eq_mul]
    refine (List.sum_le_card_nsmul _ u32Limit fun n hn => ?_).trans_eq (by rw [List.length_map])
    obtain ⟨c, hc, rfl⟩ := List.mem_map.mp hn
    exact (hchunks c hc).le
  have hcount : (blocksOf es).length * 16
      ≤ ((blocksOf es).map fun c => (4 + (firstKey c).length) + 8 + 4).sum := by
    rw [← smul_eq_mul]
    refine le_trans (by rw [List.length_map]) (List.card_nsmul_le_sum _ 16 fun n hn => ?_)
    obtain ⟨c, -, rfl⟩ := List.mem_map.mp hn
    omega
  have hbytes := hblocks h.blocks
  obtain ⟨-, -, hindex⟩ := (fits_iff es).mp h
  have hfilter' := h.filter
  have hindex' := h.index
  have hlimit : u32Limit = 2 ^ 32 := rfl
  rw [fileOf]
  simp only [List.length_append, footerOf, magic, length_withCrc _, length_toLeBytes,
    List.length_cons, List.length_nil, crcLen] at hfilter' hindex' ⊢
  have hmul : (blocksOf es).length * u32Limit ≤ 2 ^ 28 * 2 ^ 32 := by
    rw [hlimit]
    exact Nat.mul_le_mul_right _ (by omega)
  omega

/-- Every first part of what a table holds can be added to a writer. -/
theorem addAll_of_fits {es es' : List Entry} (h : Fits (es ++ es')) :
    ∃ w, Writer.create.addAll es = .ok w := by
  obtain ⟨w, hall, -⟩ := bind_eq_ok ((decides_writeTable _).ok h)
  have hfold : Writer.create.addAll (es ++ es')
      = Writer.create.addAll es >>= fun w => w.addAll es' := by
    unfold Writer.addAll
    rw [List.foldlM_append]
  rw [hfold] at hall
  obtain ⟨w', hw', -⟩ := bind_eq_ok hall
  exact ⟨w', hw'⟩

/-- The table is the table of the entries, and the manifest's record is the table's. -/
structure Stored (level : ℕ) (t : Table) (es : List Entry) : Prop where
  table : t.table = tableOf (.table t.file.number) es
  fits : Fits es
  file : t.file = metaOf t.file.number level t.table

theorem Stored.yields {level : ℕ} {t : Table} {es : List Entry} (h : Stored level t es)
    (hseq : ∀ e ∈ es, e.seq < u64Limit) : Yields Scan.next t.table.scan (es.map .ok) := by
  rw [h.table]
  exact yields_scan _ h.fits hseq

/-- Tables of runs that follow each other follow each other. -/
theorem Stored.lt {level : ℕ} {t t' : Table} {es es' : List Entry} (h : Stored level t es)
    (h' : Stored level t' es') (hne : es ≠ []) (hne' : es' ≠ [])
    (hlt : ∀ e ∈ es, ∀ f ∈ es', e.key < f.key) : t.table.maxKey < t'.table.minKey := by
  obtain ⟨e, he, hmax⟩ := exists_mem_lastKey hne
  obtain ⟨f, hf, hmin⟩ := exists_mem_firstKey hne'
  rw [h.table, h'.table]
  change lastKey es < firstKey es'
  rw [← hmax, ← hmin]
  exact hlt e he f hf

/-- The file of these entries, opened for reading. -/
def outputOf (level number : ℕ) (es : List Entry) : Table :=
  ⟨metaOf number level (tableOf (.table number) es), tableOf (.table number) es⟩

theorem stored_outputOf {es : List Entry} (h : Fits es) (level number : ℕ) :
    Stored level (outputOf level number es) es :=
  ⟨rfl, h, rfl⟩

/-- An output is closed and opened back exactly if its lengths fit. -/
theorem decides_sealOutput {es : List Entry} {w : Writer} (hw : Writer.create.addAll es = .ok w)
    (number level : ℕ) :
    Decides (sealOutput number level w) (Fits es) (outputOf level number es) := by
  have hfinish : w.finish = writeTable es := by rw [writeTable, hw, ok_bind]
  unfold sealOutput
  rw [hfinish]
  refine ((decides_writeTable es).bind fun h => ?_).congr (iff_of_eq (and_true _))
  rw [openFile_fileOf _ h ((length_fileOf_lt h).trans (by decide)), ok_bind]
  exact decides_ok _

/-! ### The loop -/

/-- The entries of an open output. -/
def Holds : Option (ℕ × Writer) → List Entry → Prop
  | none, added => added = []
  | some (_, w), added => Writer.create.addAll added = .ok w

theorem Holds.addAll {output : Option (ℕ × Writer)} {added : List Entry} (h : Holds output added)
    (number : ℕ) : Writer.create.addAll added = .ok (output.getD (number, Writer.create)).2 := by
  cases output with
  | none =>
    obtain rfl : added = [] := h
    rfl
  | some p => exact h

/-- The entries that go to the outputs. -/
def kept (snapshot : Snapshot) (level : ℕ) (e : Entry) : Bool :=
  e.value.isSome || Compaction.tombstoneNeeded snapshot level e.key

theorem kept_iff {snapshot : Snapshot} {level : ℕ} {e : Entry} : kept snapshot level e = true
    ↔ ¬(e.value = none ∧ ¬ Compaction.tombstoneNeeded snapshot level e.key = true) := by
  rw [kept, Bool.or_eq_true, Option.isSome_iff_ne_none]
  tauto

/-- The first output to come starts with what the open one holds. -/
theorem exists_mem_cut (target : ℕ) (w : Lsmkv.Writer) (added rest : List Entry) :
    ∃ more, added ++ more ∈ Compaction.cut target (some (w, added)) rest := by
  induction rest generalizing w added with
  | nil => exact ⟨[], by rw [Compaction.cut, List.append_nil]; exact List.mem_singleton_self _⟩
  | cons e rest ih =>
    rw [Compaction.cut]
    dsimp only [Option.getD_some]
    split_ifs
    · exact ⟨[e], List.mem_cons_self⟩
    · obtain ⟨more, hmore⟩ := ih (w.add e) (added ++ [e])
      exact ⟨e :: more, by rwa [List.append_assoc] at hmore⟩

theorem exists_mem_cut_cons (target : ℕ) (output : Option (Lsmkv.Writer × List Entry)) (e : Entry)
    (rest : List Entry) :
    ∃ more, output.elim [] Prod.snd ++ [e] ++ more ∈ Compaction.cut target output (e :: rest) := by
  have hstep : ∀ p : Lsmkv.Writer × List Entry, ∃ more, p.2 ++ [e] ++ more
      ∈ (if target ≤ (p.1.add e).bytesWritten then (p.2 ++ [e]) :: Compaction.cut target none rest
        else Compaction.cut target (some (p.1.add e, p.2 ++ [e])) rest) := by
    intro p
    split_ifs
    · exact ⟨[], by rw [List.append_nil]; exact List.mem_cons_self⟩
    · exact exists_mem_cut target _ _ rest
  cases output with
  | none => exact hstep (Lsmkv.Writer.create, [])
  | some p => exact hstep p

section

variable {output : Option (ℕ × Writer)} {added : List Entry} (hout : Holds output added)
  {target : ℕ} {e : Entry}

include hout

theorem Holds.add (number : ℕ) (e : Entry) :
    (output.getD (number, Writer.create)).2.add e = Writer.create.addAll (added ++ [e]) := by
  have hadded := hout.addAll number
  unfold Writer.addAll at hadded ⊢
  rw [List.foldlM_append, hadded, ok_bind]
  simp

/-- One entry more for the open output, or for a new one. -/
theorem cut_cons {w : Writer} (hw : Writer.create.addAll (added ++ [e]) = .ok w)
    (rest : List Entry) :
    Compaction.cut target (output.map fun p => (lengths p.2, added)) (e :: rest)
      = if target ≤ w.bytesWritten then (added ++ [e]) :: Compaction.cut target none rest
        else Compaction.cut target (some (lengths w, added ++ [e])) rest := by
  have hlengths := lengths_of_addAll hw
  rw [List.foldl_append, List.foldl_cons, List.foldl_nil,
    ← lengths_of_addAll (hout.addAll 0)] at hlengths
  have hbytes : w.bytesWritten = (lengths w).bytesWritten := rfl
  rw [hbytes, hlengths]
  cases output with
  | none =>
    obtain rfl : added = [] := hout
    rw [Option.map_none, Compaction.cut]
    rfl
  | some p =>
    rw [Option.map_some, Compaction.cut]
    rfl

/-- The output that an entry cannot be added to does not fit, whatever is added behind it. -/
theorem exists_not_fits {err : Error} (hw : Writer.create.addAll (added ++ [e]) = .error err)
    (rest : List Entry) :
    ∃ c ∈ Compaction.cut target (output.map fun p => (lengths p.2, added)) (e :: rest),
      ¬ Fits c := by
  obtain ⟨more, hmore⟩ := exists_mem_cut_cons target (output.map fun p => (lengths p.2, added)) e
    rest
  have hadded : (output.map fun p => (lengths p.2, added)).elim [] Prod.snd = added := by
    cases output with
    | none => exact hout.symm
    | some p => rfl
  rw [hadded] at hmore
  refine ⟨_, hmore, fun hfits => ?_⟩
  obtain ⟨w, hw'⟩ := addAll_of_fits hfits
  rw [hw] at hw'
  cases hw'

end

/-- The number of the open output, or of the new one, and those behind it. -/
theorem number_cons (output : Option (ℕ × Writer)) (next : ℕ) {last : ℕ}
    (h : (if output.isSome then next else next + 1) ≤ last) :
    next ≤ last ∧ (output.getD (next, Writer.create)).1
        :: List.range' (if output.isSome then next else next + 1)
          (last - if output.isSome then next else next + 1)
      = (output.map Prod.fst).toList ++ List.range' next (last - next) := by
  cases output with
  | none =>
    change next + 1 ≤ last at h
    have hsucc : last - next = last - (next + 1) + 1 := by omega
    refine ⟨by omega, ?_⟩
    rw [hsucc, List.range'_succ]
    rfl
  | some p => exact ⟨h, rfl⟩

/-- How the loop over `items` ends, from the number of the open output and the next one on.  It
writes the tables of the runs that the entries are cut into, numbered one behind the other, or it
meets an error; unless the merge reports one, a length of one of these tables does not fit. -/
inductive LoopEnds (level next : ℕ) (number : Option ℕ) (items : List (Except Error Entry))
    (runs : List Entry → List (List Entry)) : Except Error (List Table) × ℕ → Prop
  | written (es : List Entry) {outputs : List Table} {last : ℕ} (hitems : items = es.map .ok)
      (hstored : List.Forall₂ (Stored level) outputs (runs es)) (hle : next ≤ last)
      (hnumbers : outputs.map (fun t => t.file.number)
        = number.toList ++ List.range' next (last - next)) :
      LoopEnds level next number items runs (.ok outputs, last)
  | refused {err : Error} {last : ℕ} (h : ∀ es, items = es.map .ok →
      (∃ len, err = .tooLarge len) ∧ ∃ c ∈ runs es, ¬ Fits c) :
      LoopEnds level next number items runs (.error err, last)

section

variable {level next next' last : ℕ} {number number' : Option ℕ} {e : Entry}
  {items : List (Except Error Entry)} {runs runs' : List Entry → List (List Entry)}
  {result : Except Error (List Table) × ℕ}

theorem LoopEnds.refused_cons {err : Error} (h : ∀ es, items = es.map .ok →
    (∃ len, err = .tooLarge len) ∧ ∃ c ∈ runs (e :: es), ¬ Fits c) :
    LoopEnds level next number (.ok e :: items) runs (.error err, last) := by
  refine .refused fun es hes => ?_
  cases es with
  | nil => cases hes
  | cons e' es =>
    obtain ⟨hitem, hitems⟩ := List.cons.inj hes
    obtain rfl := Except.ok.inj hitem
    exact h es hitems

/-- An entry that closes no output. -/
theorem LoopEnds.cons (h : LoopEnds level next' number' items runs' result)
    (hruns : ∀ es, runs (e :: es) = runs' es)
    (hnumbers : ∀ {last}, next' ≤ last → next ≤ last ∧ number'.toList
      ++ List.range' next' (last - next') = number.toList ++ List.range' next (last - next)) :
    LoopEnds level next number (.ok e :: items) runs result := by
  cases h with
  | written es hitems hstored hle heq =>
    obtain ⟨hle', hsame⟩ := hnumbers hle
    rw [← hruns es] at hstored
    exact .written (e :: es) (by rw [hitems, List.map_cons]) hstored hle' (heq.trans hsame)
  | refused h =>
    refine .refused_cons fun es hes => ?_
    rw [hruns]
    exact h es hes

/-- An entry that closes an output. -/
theorem LoopEnds.close {t : Table} {c : List Entry}
    (h : LoopEnds level next' none items runs' result) (ht : Stored level t c)
    (hruns : ∀ es, runs (e :: es) = c :: runs' es)
    (hnumbers : ∀ {last}, next' ≤ last → next ≤ last ∧ t.file.number
      :: List.range' next' (last - next') = number.toList ++ List.range' next (last - next)) :
    LoopEnds level next number (.ok e :: items) runs (result.1.map (t :: ·), result.2) := by
  cases h with
  | written es hitems hstored hle heq =>
    obtain ⟨hle', hsame⟩ := hnumbers hle
    refine .written (e :: es) (by rw [hitems, List.map_cons]) ?_ hle' ?_
    · rw [hruns]
      exact .cons ht hstored
    · rw [List.map_cons, heq, ← hsame]
      rfl
  | refused h =>
    refine .refused_cons fun es hes => ?_
    obtain ⟨hlen, c', hc', hnot⟩ := h es hes
    rw [hruns]
    exact ⟨hlen, c', List.mem_cons_of_mem c hc', hnot⟩

end

/-- **How the loop ends**, for the runs that the entries kept are cut into. -/
theorem writeLoop_ends {snapshot : Snapshot} {level target : ℕ} {output : Option (ℕ × Writer)}
    {added : List Entry} (hout : Holds output added) (items : List (Except Error Entry))
    (next : ℕ) :
    LoopEnds level next (output.map Prod.fst) items (fun es => Compaction.cut target
        (output.map fun p => (lengths p.2, added)) (es.filter (kept snapshot level)))
      (writeLoop snapshot level target items output next) := by
  -- `added` is what the open output holds, and `cut` goes on from the same point
  induction items generalizing output added next with
  | nil =>
    cases output with
    | none => exact .written [] rfl .nil le_rfl (by simp)
    | some p =>
      obtain ⟨number, w⟩ := p
      have hseal := decides_sealOutput hout number level
      rw [writeLoop]
      by_cases hfits : Fits added
      · rw [hseal.ok hfits]
        exact .written [] rfl (.cons (stored_outputOf hfits level number) .nil) le_rfl
          (by simp [outputOf, metaOf])
      · obtain ⟨len, hlen⟩ := hseal.tooLarge hfits
        rw [hlen]
        refine .refused fun es hes => ?_
        obtain rfl := List.map_eq_nil_iff.mp hes.symm
        exact ⟨⟨len, rfl⟩, added, List.mem_singleton_self _, hfits⟩
  | cons item items ih =>
    cases item with
    | error err => exact .refused fun es hes => by cases es <;> cases hes
    | ok e =>
      rw [writeLoop]
      by_cases hdrop : e.value = none ∧ ¬ Compaction.tombstoneNeeded snapshot level e.key = true
      · -- a tombstone that shadows nothing
        rw [if_pos hdrop]
        refine (ih hout next).cons (fun es => ?_) fun h => ⟨h, rfl⟩
        rw [List.filter_cons_of_neg fun hkept => kept_iff.mp hkept hdrop]
      · have hkept := kept_iff.mpr hdrop
        rw [if_neg hdrop]
        dsimp only
        rw [hout.add next e]
        cases hw : Writer.create.addAll (added ++ [e]) with
        | error err =>
          -- what follows does not matter: the output this entry belongs to cannot be written
          refine .refused_cons fun es _ => ⟨(decides_addAll [] [] _).of_eq_error hw, ?_⟩
          rw [List.filter_cons_of_pos hkept]
          exact exists_not_fits hout hw _
        | ok w =>
          dsimp only
          by_cases hfull : target ≤ w.bytesWritten
          · -- the entry is the last one of its output
            have hruns : ∀ es : List Entry, Compaction.cut target
                (output.map fun p => (lengths p.2, added)) ((e :: es).filter (kept snapshot level))
                = (added ++ [e])
                  :: Compaction.cut target none (es.filter (kept snapshot level)) := by
              intro es
              rw [List.filter_cons_of_pos hkept, cut_cons hout hw, if_pos hfull]
            have hseal := decides_sealOutput hw (output.getD (next, Writer.create)).1 level
            rw [if_pos hfull]
            by_cases hfits : Fits (added ++ [e])
            · rw [hseal.ok hfits]
              exact (@ih none [] rfl _).close (stored_outputOf hfits level _) hruns
                (number_cons output next)
            · obtain ⟨len, hlen⟩ := hseal.tooLarge hfits
              rw [hlen]
              refine .refused_cons fun es _ => ⟨⟨len, rfl⟩, added ++ [e], ?_, hfits⟩
              rw [hruns]
              exact List.mem_cons_self
          · -- the output stays open, and the entry is in it
            rw [if_neg hfull]
            refine (@ih (some ((output.getD (next, Writer.create)).1, w)) (added ++ [e]) hw _).cons
              (fun es => ?_) (number_cons output next)
            rw [List.filter_cons_of_pos hkept, cut_cons hout hw, if_neg hfull]
            rfl

/-! ### The outputs -/

/-- A merge that was read to its end without an error is the merge of its sources. -/
theorem isMerge_of_drainIter {sources : List Source}
    (hsorted : ∀ s ∈ sources, s.entries.Pairwise fun v w => v.key < w.key) {es : List Entry}
    (h : drainIter Merge.next ((Merge.new sources).size + 1) (Merge.new sources) = es.map .ok) :
    Merge.IsMerge sources es ∧ ∀ s ∈ sources, s.failure = none := by
  obtain ⟨full, hmerge, hfull, hfeeds, hrem⟩ := Merge.exists_full hsorted
  by_cases hfails : ∃ s ∈ sources, s.failure ≠ none
  · obtain ⟨l, rest, err, -, -, hyields, -⟩ := Merge.yields_error hfull hfeeds hrem hfails
    rw [drainIter_eq hyields (Merge.length_le_of_yields hyields)] at h
    have herr : Except.error err ∈ es.map Except.ok := by
      rw [← h]
      simp
    obtain ⟨e, -, he⟩ := List.mem_map.mp herr
    cases he
  · have hsound : ∀ s ∈ sources, s.failure = none := fun s hs =>
      not_not.mp fun hfail => hfails ⟨s, hs, hfail⟩
    have hyields := Merge.yields_full hfull hsound
    rw [drainIter_eq hyields (Merge.length_le_of_yields hyields)] at h
    have heq : full = es := (List.map_injective_iff.mpr fun _ _ => Except.ok.inj) h
    exact ⟨heq ▸ hmerge, hsound⟩

/-- Of equal keys a merge has the same entry. -/
theorem mem_of_isMerge {sources : List Source} {es es' : List Entry}
    (hsorted : ∀ s ∈ sources, s.entries.Pairwise fun v w => v.key < w.key)
    (h : Merge.IsMerge sources es) (h' : Merge.IsMerge sources es') {e : Entry} (he : e ∈ es) :
    e ∈ es' := by
  obtain ⟨i, s, hs, hmem, hbest⟩ := h.newest e he
  obtain ⟨e', he', hkey⟩ := h'.complete s (List.mem_of_getElem? hs) e hmem
  obtain ⟨i', s', hs', hmem', hbest'⟩ := h'.newest e' he'
  have hindex : i = i' := by
    rcases hbest i' s' hs' e' hmem' hkey with hlt | ⟨hseq, hle⟩
    · rcases hbest' i s hs e hmem hkey.symm with hlt' | ⟨hseq', -⟩
      · omega
      · omega
    · rcases hbest' i s hs e hmem hkey.symm with hlt' | ⟨-, hle'⟩
      · omega
      · omega
  subst hindex
  obtain rfl := Option.some.inj (hs.symm.trans hs')
  -- in one source a key has one entry
  have hnodup : (s.entries.map Version.key).Nodup := by
    have hlt := hsorted s (List.mem_of_getElem? hs)
    exact List.pairwise_map.mpr (hlt.imp fun h => h.ne)
  rwa [← List.inj_on_of_nodup_map hnodup hmem' hmem hkey]

/-- There is one merge of sorted sources. -/
theorem isMerge_unique {sources : List Source} {es es' : List Entry}
    (hsorted : ∀ s ∈ sources, s.entries.Pairwise fun v w => v.key < w.key)
    (h : Merge.IsMerge sources es) (h' : Merge.IsMerge sources es') : es = es' := by
  have hnodup : ∀ {l : List Entry}, l.Pairwise (fun v w => v.key < w.key) → l.Nodup :=
    fun hl => hl.imp fun hlt heq => (heq ▸ hlt).false
  have hperm : es.Perm es' := (List.perm_ext_iff_of_nodup (hnodup h.sorted)
    (hnodup h'.sorted)).mpr fun e => ⟨mem_of_isMerge hsorted h h', mem_of_isMerge hsorted h' h⟩
  exact hperm.eq_of_pairwise (fun v w _ _ hlt hlt' => absurd hlt hlt'.asymm) h.sorted h'.sorted

section

variable {α β : Type} {R : α → β → Prop} {S : β → β → Prop} {T : α → α → Prop} {l : List α}
  {u : List β}

theorem exists_of_mem_forall₂ (h : List.Forall₂ R l u) {a : α} (ha : a ∈ l) : ∃ b ∈ u, R a b := by
  induction h with
  | nil => cases ha
  | @cons a' b l u hab _ ih =>
    rcases List.mem_cons.mp ha with rfl | ha
    · exact ⟨b, List.mem_cons_self, hab⟩
    · obtain ⟨b', hb', hab'⟩ := ih ha
      exact ⟨b', List.mem_cons_of_mem b hb', hab'⟩

theorem pairwise_of_forall₂ (h : List.Forall₂ R l u) (hu : u.Pairwise S)
    (himp : ∀ {a a' b b'}, R a b → R a' b' → S b b' → T a a') : l.Pairwise T := by
  induction h with
  | nil => exact List.Pairwise.nil
  | @cons a b l u hab hlu ih =>
    obtain ⟨hb, hrest⟩ := List.pairwise_cons.mp hu
    refine List.pairwise_cons.mpr ⟨fun a' ha' => ?_, ih hrest⟩
    obtain ⟨b', hb', hab'⟩ := exists_of_mem_forall₂ hlu ha'
    exact himp hab hab' (hb b' hb')

end

section

variable {snapshot : Snapshot} {plan : Plan} {target next next' : ℕ} {inputs : List SsTable}
  {outputs : List Table}
  (hsorted : ∀ t ∈ inputs, t.source.entries.Pairwise fun v w => v.key < w.key)

include hsorted

/-- **What `write_merged` writes**: the tables of the runs the merged stream is cut into, without
the tombstones that shadow nothing. -/
theorem writeMerged_eq_ok
    (h : writeMerged snapshot plan target inputs next = (.ok outputs, next')) :
    ∃ merged, Merge.IsMerge (inputs.map SsTable.source) merged
      ∧ List.Forall₂ (Stored plan.outputLevel) outputs
        (Compaction.cut target none (merged.filter (kept snapshot plan.outputLevel)))
      ∧ next ≤ next'
      ∧ outputs.map (fun t => t.file.number) = List.range' next (next' - next) := by
  have hends := @writeLoop_ends snapshot plan.outputLevel target none [] rfl (drainIter Merge.next
    ((Merge.new (inputs.map SsTable.source)).size + 1) (Merge.new (inputs.map SsTable.source))) next
  rw [show writeLoop snapshot plan.outputLevel target _ none next = _ from h] at hends
  cases hends with
  | written es hitems hstored hle hnumbers =>
    exact ⟨es, (isMerge_of_drainIter (List.forall_mem_map.mpr hsorted) hitems).1, hstored, hle,
      hnumbers⟩

variable (hread : ∀ t ∈ inputs, t.source.failure = none) {merged : List Entry}
  (hmerge : Merge.IsMerge (inputs.map SsTable.source) merged)

include hread hmerge

/-- **How `write_merged` ends** on inputs that can be read to their ends: it writes the tables of
the runs that the merged stream is cut into, or one of them has a length that does not fit. -/
theorem writeMerged_cases (next : ℕ) :
    (∃ outputs next', writeMerged snapshot plan target inputs next = (.ok outputs, next')
      ∧ List.Forall₂ (Stored plan.outputLevel) outputs
        (Compaction.cut target none (merged.filter (kept snapshot plan.outputLevel)))
      ∧ next ≤ next' ∧ outputs.map (fun t => t.file.number) = List.range' next (next' - next))
    ∨ ∃ len next', writeMerged snapshot plan target inputs next = (.error (.tooLarge len), next')
      ∧ ∃ c ∈ Compaction.cut target none (merged.filter (kept snapshot plan.outputLevel)),
        ¬ Fits c := by
  have hsorted' : ∀ s ∈ inputs.map SsTable.source, s.entries.Pairwise fun v w => v.key < w.key :=
    List.forall_mem_map.mpr hsorted
  obtain ⟨full, hfull, hyields, -, -⟩ := Merge.exists_full hsorted'
  have hitems := Merge.yields_full hyields (List.forall_mem_map.mpr hread)
  obtain rfl := isMerge_unique hsorted' hmerge hfull
  rw [writeMerged, drainIter_eq hitems (Merge.length_le_of_yields hitems)]
  have hends := @writeLoop_ends snapshot plan.outputLevel target none [] rfl (merged.map .ok) next
  revert hends
  generalize writeLoop snapshot plan.outputLevel target (merged.map .ok) none next = result
  rintro (⟨es, hes, hstored, hle, hnumbers⟩ | h)
  · obtain rfl : merged = es := (List.map_injective_iff.mpr fun _ _ => Except.ok.inj) hes
    exact .inl ⟨_, _, rfl, hstored, hle, hnumbers⟩
  · obtain ⟨⟨len, rfl⟩, hnot⟩ := h merged rfl
    exact .inr ⟨len, _, rfl, hnot⟩

end

/-- Entries of inputs have numbers that fit their fields. -/
theorem seq_lt_of_mem {inputs : List SsTable} {merged : List Entry}
    (h : Merge.IsMerge (inputs.map SsTable.source) merged) {e : Entry} (he : e ∈ merged) :
    e.seq < u64Limit := by
  obtain ⟨i, s, hs, hmem, -⟩ := h.newest e he
  obtain ⟨t, -, rfl⟩ := List.mem_map.mp (List.mem_of_getElem? hs)
  exact (yields_source t).2 e hmem

/-- **Cutting a merge loses nothing.**  When `write_merged` succeeds, its outputs scan one after the
other to the merged stream of the inputs without the tombstones no file below the output level
covers; no output is empty, and each ends before the next begins. -/
theorem scan_writeMerged {snapshot : Snapshot} {plan : Plan} {target next next' : ℕ}
    {inputs : List SsTable} {outputs : List Table}
    (hsorted : ∀ t ∈ inputs, t.source.entries.Pairwise fun v w => v.key < w.key)
    (h : writeMerged snapshot plan target inputs next = (.ok outputs, next')) :
    ∃ merged : List Entry, merged.Pairwise (fun v w => v.key < w.key)
      ∧ (∀ e ∈ merged, (∃ t ∈ inputs, e ∈ t.source.entries)
        ∧ ∀ t ∈ inputs, ∀ f ∈ t.source.entries, f.key = e.key → f.seq ≤ e.seq)
      ∧ (∀ t ∈ inputs, ∀ f ∈ t.source.entries, ∃ e ∈ merged, e.key = f.key)
      ∧ (∃ chunks : List (List Entry),
        List.Forall₂ (fun o c => Yields Scan.next o.table.scan (c.map .ok)) outputs chunks
          ∧ chunks.flatten = merged.filter (fun e => e.value.isSome
            || snapshot.files.any fun file => plan.outputLevel < file.level && file.covers e.key)
          ∧ ∀ c ∈ chunks, c ≠ [])
      ∧ outputs.Pairwise fun o o' => o.table.maxKey < o'.table.minKey := by
  obtain ⟨merged, hmerge, hstored, -, -⟩ := writeMerged_eq_ok hsorted h
  set es := merged.filter (kept snapshot plan.outputLevel) with hes
  have hflat : (Compaction.cut target none es).flatten = es := Compaction.flatten_cut target es none
  have hne : ∀ c ∈ Compaction.cut target none es, c ≠ [] := fun c hc =>
    Compaction.ne_nil_of_mem_cut (by simp) hc
  have hpairs : es.Pairwise fun v w => v.key < w.key := hmerge.sorted.filter _
  rw [← hflat, List.pairwise_flatten] at hpairs
  have hseq : ∀ c ∈ Compaction.cut target none es, ∀ e ∈ c, e.seq < u64Limit := by
    intro c hc e he
    have hmem : e ∈ es := by
      rw [← hflat]
      exact List.mem_flatten.mpr ⟨c, hc, he⟩
    exact seq_lt_of_mem hmerge (List.mem_of_mem_filter hmem)
  refine ⟨merged, hmerge.sorted, fun e he => ?_, fun t ht f hf => ?_, ⟨_, ?_, hflat, hne⟩, ?_⟩
  · obtain ⟨i, s, hs, hmem, hbest⟩ := hmerge.newest e he
    obtain ⟨t, ht, rfl⟩ := List.mem_map.mp (List.mem_of_getElem? hs)
    refine ⟨⟨t, ht, hmem⟩, fun t' ht' f hf hkey => ?_⟩
    obtain ⟨j, hj⟩ := List.getElem?_of_mem (List.mem_map_of_mem ht')
    rcases hbest j t'.source hj f hf hkey with hlt | ⟨heq, -⟩
    · exact hlt.le
    · exact heq.le
  · exact hmerge.complete t.source (List.mem_map_of_mem ht) f hf
  · have hboth := ((List.forall₂_and_left _ _).mpr ⟨hseq, hstored.flip⟩)
    exact (hboth.imp fun c o h => h.2.yields h.1).flip
  · have hfollow : (Compaction.cut target none es).Pairwise fun c c' =>
        c ≠ [] ∧ c' ≠ [] ∧ ∀ e ∈ c, ∀ f ∈ c', e.key < f.key :=
      hpairs.2.imp_of_mem fun hc hc' hlt => ⟨hne _ hc, hne _ hc', hlt⟩
    exact pairwise_of_forall₂ hstored hfollow fun ht ht' h => ht.lt ht' h.1 h.2.1 h.2.2

/-- Two tables that share a key. -/
def sharedInputs : List SsTable :=
  [tableOf (.table 1) [⟨[1], 1, some [2]⟩], tableOf (.table 2) [⟨[1], 3, none⟩, ⟨[2], 2, some []⟩]]

theorem scan_writeMerged_shared :
    ∃ outputs next', writeMerged Snapshot.default ⟨0, []⟩ 4096 sharedInputs 3 = (.ok outputs, next')
      ∧ outputs ≠ [] ∧ outputs.Pairwise fun o o' => o.table.maxKey < o'.table.minKey := by
  have hsorted : ∀ t ∈ sharedInputs, t.source.entries.Pairwise fun v w => v.key < w.key := by
    decide +kernel
  have hrun : ((writeMerged Snapshot.default ⟨0, []⟩ 4096 sharedInputs 3).1.toOption.any
      fun outputs => decide (outputs ≠ [])) = true := by decide +kernel
  cases hresult : writeMerged Snapshot.default ⟨0, []⟩ 4096 sharedInputs 3 with
  | mk result next' =>
    rw [hresult] at hrun
    cases result with
    | error err => cases hrun
    | ok outputs =>
      obtain ⟨merged, -, -, -, -, hpairs⟩ := scan_writeMerged hsorted hresult
      exact ⟨outputs, next', rfl, of_decide_eq_true hrun, hpairs⟩

end Lsmkv.Sst
