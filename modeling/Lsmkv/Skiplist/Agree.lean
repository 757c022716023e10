import Lsmkv.Skiplist.Calls

/-!
# The two memtables agree

`BTreeMemtable` overwrites the version of a key in place, and `SkipMemtable` keeps every version.
Given the same mutations one after another they return the same from every call (`memtables_agree`),
and apart from what the inserts return it does not matter in which order the mutations came.

Both come down to one list: the newest mutation of every key, in key order.  The tree holds that
list; the skiplist finds it by passing over every entry of its bottom level that has the key of the
entry before it (`leaders`).
-/

namespace Lsmkv

open Skiplist

/-! ### The entries the loops of the skiplist stop at -/

/-- The entries whose key is not that of the entry before them. -/
def leaders : Option Bytes → List Entry → List Entry
  | _, [] => []
  | previous, e :: rest =>
    if previous ≠ some e.key then e :: leaders (some e.key) rest else leaders previous rest

theorem visitNewest_eq {σ ε : Type*} (visit : σ → Entry → Except ε σ) (previous : Option Bytes)
    (l : List Entry) (s : σ) :
    SkipMemtable.visitNewest visit previous l s = (leaders previous l).foldlM visit s := by
  induction l generalizing previous s with
  | nil => rfl
  | cons e rest ih =>
    rw [SkipMemtable.visitNewest, leaders]
    split_ifs
    · rw [List.foldlM_cons]
      exact bind_congr fun s => ih (some e.key) s
    · exact ih previous s

theorem countKeys_eq (previous : Option Bytes) (l : List Entry) :
    SkipMemtable.countKeys previous l = (leaders previous l).length := by
  induction l generalizing previous with
  | nil => rfl
  | cons e rest ih =>
    rw [SkipMemtable.countKeys, leaders]
    split_ifs
    · rw [List.length_cons, ih]
    · exact ih previous

/-- The keys of a sorted list of versions, as seen from the entry before it. -/
theorem pairwise_leaders {l : List Entry} {previous : Option Bytes}
    (hl : l.Pairwise fun v w => Precedes v w.key w.seq)
    (hprevious : ∀ k ∈ previous, ∀ v ∈ l, k ≤ v.key) :
    (leaders previous l).Pairwise (fun v w => v.key < w.key)
      ∧ ∀ k ∈ previous, ∀ v ∈ leaders previous l, k < v.key := by
  induction l generalizing previous with
  | nil => exact ⟨List.Pairwise.nil, fun _ _ _ hv => nomatch hv⟩
  | cons e rest ih =>
    obtain ⟨he, hrest⟩ := List.pairwise_cons.mp hl
    rw [leaders]
    split_ifs with hne
    · have hle : ∀ k ∈ some e.key, ∀ v ∈ rest, k ≤ v.key := by
        rintro k hk v hv
        obtain rfl := Option.some.inj hk
        rcases he v hv with hlt | ⟨heq, -⟩
        · exact hlt.le
        · exact heq.le
      obtain ⟨hsorted, hafter⟩ := ih hrest hle
      refine ⟨List.pairwise_cons.mpr ⟨hafter e.key rfl, hsorted⟩, fun k hk v hv => ?_⟩
      have hke : k < e.key := lt_of_le_of_ne (hprevious k hk e List.mem_cons_self)
        fun heq => hne (heq ▸ hk)
      rcases List.mem_cons.mp hv with rfl | hv
      · exact hke
      · exact hke.trans (hafter e.key rfl v hv)
    · exact ih hrest fun k hk v hv => hprevious k hk v (List.mem_cons_of_mem _ hv)

/-- An entry is stopped at exactly if it is the newest of its key. -/
theorem mem_leaders_iff {l : List Entry} {previous : Option Bytes}
    (hl : l.Pairwise fun v w => Precedes v w.key w.seq)
    (hprevious : ∀ k ∈ previous, ∀ v ∈ l, k ≤ v.key) {v : Entry} :
    v ∈ leaders previous l
      ↔ v ∈ l ∧ previous ≠ some v.key ∧ ∀ w ∈ l, w.key = v.key → w.seq ≤ v.seq := by
  induction l generalizing previous with
  | nil => simp [leaders]
  | cons e rest ih =>
    obtain ⟨he, hrest⟩ := List.pairwise_cons.mp hl
    have hle : ∀ w ∈ rest, e.key ≤ w.key := fun w hw => (he w hw).elim le_of_lt fun h => h.1.le
    rw [leaders]
    split_ifs with hne
    · -- the first of its key leads: what follows under that key is older
      have hle' : ∀ k ∈ some e.key, ∀ w ∈ rest, k ≤ w.key := by
        rintro k hk
        obtain rfl := Option.some.inj hk
        exact hle
      rw [List.mem_cons, ih hrest hle']
      constructor
      · rintro (rfl | ⟨hmem, hkey, hmax⟩)
        · refine ⟨List.mem_cons_self, hne, fun w hw hkey => ?_⟩
          rcases List.mem_cons.mp hw with rfl | hw
          · exact le_rfl
          · rcases he w hw with hlt | ⟨-, hlt⟩
            · exact absurd hkey hlt.ne'
            · exact hlt.le
        · refine ⟨List.mem_cons_of_mem _ hmem, fun heq => ?_, fun w hw hwkey => ?_⟩
          · -- a key in front of the list that comes back must have been there all along
            have hvk := le_antisymm (hprevious _ heq e List.mem_cons_self) (hle v hmem)
            exact hkey (congrArg some hvk.symm)
          · rcases List.mem_cons.mp hw with rfl | hw
            · exact absurd (congrArg some hwkey) hkey
            · exact hmax w hw hwkey
      · rintro ⟨hmem, -, hmax⟩
        rcases List.mem_cons.mp hmem with rfl | hmem
        · exact Or.inl rfl
        · refine Or.inr ⟨hmem, fun heq => ?_, fun w hw => hmax w (List.mem_cons_of_mem _ hw)⟩
          have hkey := Option.some.inj heq
          rcases he v hmem with hlt | ⟨-, hlt⟩
          · exact hlt.ne hkey
          · exact absurd (hmax e List.mem_cons_self hkey) (not_le.mpr hlt)
    · rw [ih hrest fun k hk w hw => hprevious k hk w (List.mem_cons_of_mem _ hw)]
      have hsame : previous = some e.key := not_not.mp hne
      constructor
      · rintro ⟨hmem, hkey, hmax⟩
        refine ⟨List.mem_cons_of_mem _ hmem, hkey, fun w hw hwkey => ?_⟩
        rcases List.mem_cons.mp hw with rfl | hw
        · exact absurd (hsame.trans (congrArg some hwkey)) hkey
        · exact hmax w hw hwkey
      · rintro ⟨hmem, hkey, hmax⟩
        rcases List.mem_cons.mp hmem with rfl | hmem
        · exact absurd hsame hkey
        · exact ⟨hmem, hkey, fun w hw => hmax w (List.mem_cons_of_mem _ hw)⟩

/-- The bottom level is in order. -/
theorem Skiplist.Levels.pairwise_bottom {t : SkipMemtable} {plan : ℕ → Option Node}
    {chain : ℕ → List ℕ} (hv : Levels t plan chain) :
    t.bottom.Pairwise fun v w => Precedes v w.key w.seq := by
  rw [hv.bottom_eq, List.pairwise_filterMap]
  refine (List.pairwise_cons.mp (hv.sorted 0)).2.imp_of_mem fun {i j} hi _ hij v hvi w hwj => ?_
  obtain ⟨-, m, hm, hlt⟩ := hij
  obtain ⟨n, hn, hnm⟩ := hlt.resolve_left (hv.ne_head hi)
  rw [hn] at hvi
  rw [hm] at hwj
  obtain rfl := Option.some.inj hvi
  obtain rfl := Option.some.inj hwj
  exact hnm

/-! ### The newest mutation of every key -/

/-- The newest mutation of every key of `es`, in key order. -/
structure Visits (visited es : List Entry) : Prop where
  sorted : visited.Pairwise fun v w => v.key < w.key
  mem_iff : ∀ v, v ∈ visited ↔ v ∈ es ∧ ∀ w ∈ es, w.key = v.key → w.seq ≤ v.seq

theorem Visits.unique {visited visited' es : List Entry} (h : Visits visited es)
    (h' : Visits visited' es) : visited = visited' := by
  have : Std.Antisymm fun v w : Entry => v.key < w.key := ⟨fun _ _ h h' => absurd h' h.asymm⟩
  have : Std.Irrefl fun v w : Entry => v.key < w.key := ⟨fun _ => lt_irrefl _⟩
  exact h.sorted.eq_of_mem_iff h'.sorted fun v => (h.mem_iff v).trans (h'.mem_iff v).symm

theorem Visits.congr {visited es es' : List Entry} (h : Visits visited es)
    (hmem : ∀ v, v ∈ es' ↔ v ∈ es) : Visits visited es' where
  sorted := h.sorted
  mem_iff v := by simp only [h.mem_iff, hmem]

theorem Distinct.of_nodup {es : List Entry} (h : (es.map Version.seq).Nodup) : Distinct es :=
  fun _ hv _ hw heq => List.inj_on_of_nodup_map h hv hw heq

/-- The tree holds the newest mutation of every key. -/
theorem Memtable.visits_ofRecords {es : List Entry} (hd : Distinct es) :
    Visits (Memtable.ofRecords es).run.entries es where
  sorted := (Memtable.ofRecords es).run.sorted
  mem_iff v := by
    rw [Run.mem_iff_find, Memtable.find_ofRecords]
    constructor
    · intro h
      obtain ⟨hmem, -, hmax⟩ := newest_spec h
      exact ⟨hmem, hmax⟩
    · rintro ⟨hmem, hmax⟩
      exact newest_eq_some hd hmem rfl hmax

/-- The loops over the bottom level of the skiplist stop at the newest mutation of every key. -/
theorem Skiplist.Filled.visits {t : SkipMemtable} {es : List Entry} (hf : Filled t es) :
    Visits (leaders none t.bottom) es := by
  obtain ⟨chain, hq⟩ := hf.quiet
  have hsorted := hq.levels.pairwise_bottom
  have hnone : ∀ k ∈ (none : Option Bytes), ∀ v ∈ t.bottom, k ≤ v.key := fun _ hk => nomatch hk
  refine Visits.congr ⟨(pairwise_leaders hsorted hnone).1, fun v => ?_⟩
    fun v => (hf.mem_bottom v).symm
  rw [mem_leaders_iff hsorted hnone]
  simp

/-! ### What the inserts return -/

theorem length_verdicts (prior es : List Entry) : (verdicts prior es).length = es.length := by
  induction es generalizing prior with
  | nil => rfl
  | cons e es ih => rw [verdicts, List.length_cons, ih, List.length_cons]

theorem getElem?_verdicts {prior es : List Entry} {i : ℕ} {e : Entry} (h : es[i]? = some e) :
    (verdicts prior es)[i]? = some true
      ↔ ∀ v ∈ prior ++ es.take i, v.key = e.key → v.seq < e.seq := by
  induction es generalizing prior i with
  | nil => cases h
  | cons f es ih =>
    rw [verdicts]
    cases i with
    | zero =>
      obtain rfl := Option.some.inj h
      simp
    | succ i =>
      rw [List.getElem?_cons_succ] at h ⊢
      rw [ih h, List.take_succ_cons, List.append_assoc, List.singleton_append]

/-- The tree reports the same as the history says. -/
theorem Memtable.insertAll_snd {m : Memtable} {prior : List Entry}
    (hm : ∀ key, m.run.find key = newest prior key) (es : List Entry) :
    (m.insertAll es).2 = verdicts prior es := by
  induction es generalizing m prior with
  | nil => rfl
  | cons e es ih =>
    have hverdict : (m.insert e).2 = decide (∀ v ∈ prior, v.key = e.key → v.seq < e.seq) := by
      rw [Bool.eq_iff_iff, Memtable.insert_eq_true_iff, decide_eq_true_iff, hm]
      constructor
      · intro hall v hv hkey
        cases hn : newest prior e.key with
        | none => exact absurd hkey (newest_eq_none_iff.mp hn v hv)
        | some w => exact ((newest_spec hn).2.2 v hv hkey).trans_lt (hall w hn)
      · intro hall w hw
        obtain ⟨hmem, hkey, -⟩ := newest_spec hw
        exact hall w hmem hkey
    have hnext : ∀ key, (m.insert e).1.run.find key = newest (prior ++ [e]) key := by
      intro key
      rw [Memtable.run_insert, Run.find_add, newest_append_singleton, hm]
    rw [Memtable.insertAll, verdicts, ← hverdict, ← ih hnext]

/-! ### Agreement -/

/-- The link of the head tells whether the loops stop anywhere. -/
theorem Skiplist.Filled.isEmpty_eq {t : SkipMemtable} {es : List Entry} (hf : Filled t es) :
    t.isEmpty = (leaders none t.bottom).isEmpty := by
  obtain ⟨chain, hq⟩ := hf.quiet
  rw [SkipMemtable.isEmpty, (hq.levels.chained 0 (by decide)).next_eq, hq.levels.bottom_eq]
  cases hchain : chain 0 with
  | nil => rfl
  | cons i rest =>
    obtain ⟨n, hn, -⟩ := hq.levels.tall 0 i (hchain ▸ List.mem_cons_self)
    rw [List.filterMap_cons_some (b := n.entry) (by rw [hn]; rfl), leaders,
      if_pos (Option.some_ne_none _).symm]
    rfl

/-- **The two memtables agree.**  Take any mutations with pairwise distinct numbers and an arena
with room for them.  `visited` is the newest mutation of every key, in key order, and depends on the
set of the mutations only.  In whatever order they are inserted one after another, both tables
return the same from every insert, namely `true` exactly if the number is higher than those of all
earlier mutations of its key; and from then on `get`, `len`, `is_empty` and `for_each` of both of
them are those of `visited`. -/
theorem memtables_agree (budget capacity : ℕ) (es : List Entry)
    (hdistinct : (es.map Version.seq).Nodup) (hseq : ∀ e ∈ es, e.seq < u64Limit)
    (harena : EnoughArena capacity es.length) :
    ∃ visited : List Entry, visited.Pairwise (fun v w => v.key < w.key)
      ∧ (∀ v, v ∈ visited ↔ v ∈ es ∧ ∀ w ∈ es, w.key = v.key → w.seq ≤ v.seq)
      ∧ ∀ order : List Entry, order.Perm es → ∃ t m answers,
        (SkipMemtable.withCapacity budget capacity).insertAll order = pure (t, answers)
        ∧ Memtable.new.insertAll order = (m, answers)
        ∧ answers.length = order.length
        ∧ (∀ i e, order[i]? = some e → (answers[i]? = some true
          ↔ ∀ v ∈ order.take i, v.key = e.key → v.seq < e.seq))
        ∧ (∀ key, t.get key = pure (m.get key)
          ∧ m.get key = Lookup.ofEntry (visited.find? fun v => v.key = key))
        ∧ (t.len = m.len ∧ m.len = visited.length)
        ∧ (t.isEmpty = m.isEmpty ∧ m.isEmpty = visited.isEmpty)
        ∧ ∀ (σ ε : Type) (visit : σ → Entry → Except ε σ) (s : σ),
          t.forEach visit s = m.forEach visit s ∧ m.forEach visit s = visited.foldlM visit s := by
  have hvisits := Memtable.visits_ofRecords (Distinct.of_nodup hdistinct)
  refine ⟨_, hvisits.sorted, hvisits.mem_iff, fun order hperm => ?_⟩
  have hdistinct' : (order.map Version.seq).Nodup := (hperm.map _).nodup_iff.mpr hdistinct
  have hd := Distinct.of_nodup hdistinct'
  obtain ⟨t, hinsert, hf⟩ := (filled_withCapacity budget capacity).insertAll_eq order
    (by rw [hperm.length_eq, List.length_nil, Nat.zero_add]; exact harena)
    (fun e he => hseq e (hperm.mem_iff.mp he))
    hdistinct'
  -- both tables visit the list that the set of the mutations determines
  have hm : (Memtable.new.insertAll order).1 = Memtable.ofRecords order :=
    Memtable.insertAll_fst _ _
  have htree : (Memtable.new.insertAll order).1.run = (Memtable.ofRecords es).run := by
    rw [hm]
    exact Run.ext ((Memtable.visits_ofRecords hd).unique
      (hvisits.congr fun v => hperm.mem_iff))
  have hskip : leaders none t.bottom = (Memtable.ofRecords es).run.entries :=
    hf.visits.unique (hvisits.congr fun v => hperm.mem_iff)
  refine ⟨t, (Memtable.new.insertAll order).1, verdicts [] order, hinsert, ?_, length_verdicts _ _,
    fun i e he => getElem?_verdicts he, fun key => ⟨?_, ?_⟩, ⟨?_, ?_⟩, ⟨?_, ?_⟩, fun σ ε visit s =>
      ⟨?_, ?_⟩⟩
  · rw [← Memtable.insertAll_snd
      (show ∀ key, Memtable.new.run.find key = newest [] key from fun _ => rfl)]
  · rw [hf.get_eq, newest_congr hd fun v _ => hf.mem_bottom v, Memtable.get, hm,
      Memtable.find_ofRecords]
  · rw [Memtable.get, htree]
    rfl
  · rw [SkipMemtable.len, countKeys_eq, hskip, Memtable.len, htree]
  · rw [Memtable.len, htree]
  · rw [hf.isEmpty_eq, hskip, Memtable.isEmpty, htree]
  · rw [Memtable.isEmpty, htree]
  · rw [SkipMemtable.forEach, visitNewest_eq, hskip, Memtable.forEach, htree]
  · rw [Memtable.forEach, htree]

/-- Four mutations of three keys: one is empty, one begins with another, and one has a tombstone
that arrives before the version it hides. -/
def arrivals : List Entry :=
  [⟨[1, 2], 2, none⟩, ⟨[1], 4, some [7]⟩, ⟨[1, 2], 1, some [9]⟩, ⟨[], 3, some []⟩]

theorem memtables_agree_arrivals : ∃ t,
    (SkipMemtable.withCapacity 0 16).insertAll arrivals = pure (t, [true, true, false, true])
      ∧ t.get [1, 2] = pure .deleted ∧ t.get [] = pure (.found []) ∧ t.get [2] = pure .missing
      ∧ t.len = 3 ∧ t.isEmpty = false := by
  obtain ⟨visited, -, -, hagree⟩ := memtables_agree 0 16 arrivals (by decide)
    (by decide) (by decide +kernel)
  obtain ⟨t, m, answers, hskip, htree, -, -, hget, ⟨hlen, -⟩, ⟨hempty, -⟩, -⟩ :=
    hagree arrivals (List.Perm.refl _)
  have hanswers : (Memtable.new.insertAll arrivals).2 = [true, true, false, true] := by
    decide +kernel
  obtain rfl : m = (Memtable.new.insertAll arrivals).1 := by rw [htree]
  rw [htree] at hanswers
  refine ⟨t, hanswers ▸ hskip, (hget _).1.trans (congrArg pure ?_),
    (hget _).1.trans (congrArg pure ?_),
    (hget _).1.trans (congrArg pure ?_), hlen.trans ?_, hempty.trans ?_⟩
  all_goals decide +kernel

end Lsmkv
