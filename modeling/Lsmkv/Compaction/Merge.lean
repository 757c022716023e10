import Lsmkv.Sstable

/-!
# Merging sorted files (`compaction::Merge`)

The merge keeps the next entry of every source in a heap and pops the smallest key, and for equal
keys the newest version; the other versions of that key are popped and dropped.  The heap is a list
from which the greatest element is taken, which is all a `BinaryHeap` promises.

`Rem m h` says that the entry `h` is still to come out of the merge `m`.  One call of `next` returns
the first of them and leaves those of larger keys (`Feeds.next`), so a merge yields one entry for
every key, the newest, in key order (`Feeds.toList`, `merged_spec`).
-/

namespace Lsmkv

/-- What a scan still yields: entries, then perhaps an error. -/
structure Source where
  entries : List Entry
  failure : Option Error
  deriving DecidableEq, Repr

namespace Source

/-- What a source yields. -/
def items (s : Source) : List (Except Error Entry) :=
  s.entries.map .ok ++ s.failure.toList.map .error

/-- The entries before the first error, and the error. -/
def ofItems : List (Except Error Entry) → Source
  | [] => ⟨[], none⟩
  | .ok e :: items => ⟨e :: (ofItems items).entries, (ofItems items).failure⟩
  | .error err :: _ => ⟨[], some err⟩

theorem ofItems_map_ok (es : List Entry) : ofItems (es.map .ok) = ⟨es, none⟩ := by
  induction es with
  | nil => rfl
  | cons e es ih => rw [List.map_cons, ofItems, ih]

end Source

/-- The next entry of one source. -/
structure Head where
  entry : Entry
  source : ℕ
  deriving DecidableEq, Repr

/-- `Ord for Head`: reversed on the key, since the heap pops its greatest element. -/
def Head.order (self other : Head) : Ordering :=
  (ordCmp other.entry.key self.entry.key).then
    ((ordCmp self.entry.seq other.entry.seq).then (ordCmp other.source self.source))

/-- The merged stream of several sorted files. -/
structure Merge where
  sources : List Source
  heap : List Head
  failure : Option Error
  deriving DecidableEq, Repr

namespace Merge

/-- The greatest element of a heap. -/
def greatest : List Head → Option Head
  | [] => none
  | h :: rest =>
    match greatest rest with
    | none => some h
    | some g => if h.order g = .lt then some g else some h

/-- Moves one entry from a source into the heap. -/
def pull (m : Merge) (source : ℕ) : Merge :=
  match m.sources[source]? with
  | some ⟨e :: rest, failure⟩ =>
    { m with sources := m.sources.set source ⟨rest, failure⟩, heap := ⟨e, source⟩ :: m.heap }
  | some ⟨[], some err⟩ =>
    { m with sources := m.sources.set source ⟨[], none⟩, failure := m.failure.or (some err) }
  | some ⟨[], none⟩ => m
  | none => m

/-- Merges `sources`, which each have to be sorted by key. -/
def new (sources : List Source) : Merge :=
  (List.range sources.length).foldl pull ⟨sources, [], none⟩

/-- Takes a head off the heap and feeds its source again. -/
def pop (m : Merge) (head : Head) : Merge := pull { m with heap := m.heap.erase head } head.source

/-- Entries the merge has not consumed. -/
def size (m : Merge) : ℕ := m.heap.length + (m.sources.map fun s => s.entries.length).sum

/-- Takes the other versions of `key` off the heap.  Every turn consumes an entry. -/
def dropStale (key : Bytes) : ℕ → Merge → Merge
  | 0, m => m
  | fuel + 1, m =>
    match greatest m.heap with
    | none => m
    | some stale =>
      if stale.entry.key = key then dropStale key fuel (m.pop stale) else m

/-- `Iterator::next`. -/
def next (m : Merge) : Option (Except Error Entry) × Merge :=
  match m.failure with
  | some err => (some (.error err), { m with failure := none, heap := [] })
  | none =>
    match greatest m.heap with
    | none => (none, m)
    | some head =>
      let m := m.pop head
      (some (.ok head.entry), dropStale head.entry.key m.size m)

/-- The stream as a list, or the error that ended it. -/
def toList : ℕ → Merge → Except Error (List Entry)
  | 0, _ => .ok []
  | fuel + 1, m =>
    match m.next with
    | (none, _) => .ok []
    | (some (.error err), _) => .error err
    | (some (.ok e), m) => (toList fuel m).map (e :: ·)

end Merge

/-! ### The order of the heap -/

/-- `g` comes out of the heap before `h`, or they are equal. -/
def Head.Ahead (g h : Head) : Prop :=
  g.entry.key < h.entry.key ∨ g.entry.key = h.entry.key
    ∧ (h.entry.seq < g.entry.seq ∨ g.entry.seq = h.entry.seq ∧ g.source ≤ h.source)

theorem Head.order_lt_iff (g h : Head) : g.order h = .lt ↔ ¬ g.Ahead h := by
  unfold Head.order Head.Ahead
  simp only [Ordering.then_eq_lt, ordCmp_eq_lt, ordCmp_eq_eq]
  rcases lt_trichotomy g.entry.key h.entry.key with hk | hk | hk
  · simp [hk, hk.not_gt, hk.ne']
  · rcases lt_trichotomy g.entry.seq h.entry.seq with hs | hs | hs
    · simp [hk, hs, hs.not_gt, hs.ne]
    · simp [hk, hs]
    · simp [hk, hs, hs.not_gt, hs.ne']
  · simp [hk, hk.not_gt, hk.ne']

theorem Head.Ahead.trans {f g h : Head} (hfg : f.Ahead g) (hgh : g.Ahead h) : f.Ahead h := by
  rcases hfg with hk | ⟨hk, hs⟩ <;> rcases hgh with hk' | ⟨hk', hs'⟩
  · exact Or.inl (hk.trans hk')
  · exact Or.inl (hk' ▸ hk)
  · exact Or.inl (hk ▸ hk')
  · refine Or.inr ⟨hk.trans hk', ?_⟩
    omega

theorem Head.Ahead.refl (h : Head) : h.Ahead h := Or.inr ⟨rfl, Or.inr ⟨rfl, le_rfl⟩⟩

theorem Head.Ahead.total (g h : Head) : g.Ahead h ∨ h.Ahead g := by
  unfold Head.Ahead
  rcases lt_trichotomy g.entry.key h.entry.key with hk | hk | hk
  · exact Or.inl (Or.inl hk)
  · rcases lt_trichotomy g.entry.seq h.entry.seq with hs | hs | hs
    · exact Or.inr (Or.inr ⟨hk.symm, Or.inl hs⟩)
    · rcases le_total g.source h.source with hle | hle
      · exact Or.inl (Or.inr ⟨hk, Or.inr ⟨hs, hle⟩⟩)
      · exact Or.inr (Or.inr ⟨hk.symm, Or.inr ⟨hs.symm, hle⟩⟩)
    · exact Or.inl (Or.inr ⟨hk, Or.inl hs⟩)
  · exact Or.inr (Or.inl hk)

theorem Head.Ahead.key_le {g h : Head} (hgh : g.Ahead h) : g.entry.key ≤ h.entry.key := by
  rcases hgh with hk | ⟨hk, -⟩
  · exact hk.le
  · exact hk.le

namespace Merge

theorem greatest_eq_none {heap : List Head} : greatest heap = none ↔ heap = [] := by
  cases heap with
  | nil => simp [greatest]
  | cons h rest =>
    rw [greatest]
    cases greatest rest with
    | none => simp
    | some g =>
      dsimp only
      split_ifs <;> simp

/-- The greatest element of the heap comes out before all others. -/
theorem greatest_spec {heap : List Head} {g : Head} (h : greatest heap = some g) :
    g ∈ heap ∧ ∀ x ∈ heap, g.Ahead x := by
  induction heap generalizing g with
  | nil => cases h
  | cons x rest ih =>
    rw [greatest] at h
    cases hrest : greatest rest with
    | none =>
      rw [hrest] at h
      obtain rfl := Option.some.inj h
      rw [greatest_eq_none.mp hrest]
      refine ⟨List.mem_singleton_self x, fun y hy => ?_⟩
      rw [List.mem_singleton.mp hy]
      exact Head.Ahead.refl x
    | some f =>
      obtain ⟨hmem, hmax⟩ := ih hrest
      rw [hrest] at h
      dsimp only at h
      split_ifs at h with hlt
      · obtain rfl := Option.some.inj h
        refine ⟨List.mem_cons_of_mem _ hmem, fun y hy => ?_⟩
        rcases List.mem_cons.mp hy with rfl | hy
        · rw [Head.order_lt_iff] at hlt
          exact (Head.Ahead.total y f).resolve_left hlt
        · exact hmax y hy
      · obtain rfl := Option.some.inj h
        rw [Head.order_lt_iff, not_not] at hlt
        refine ⟨List.mem_cons_self, fun y hy => ?_⟩
        rcases List.mem_cons.mp hy with rfl | hy
        · exact Head.Ahead.refl y
        · exact hlt.trans (hmax y hy)

/-! ### What is still to come -/

/-- The entry is in the heap or in its source. -/
def Rem (m : Merge) (h : Head) : Prop :=
  h ∈ m.heap ∨ ∃ s, m.sources[h.source]? = some s ∧ h.entry ∈ s.entries

/-- A merge of sorted sources none of which failed: the heap holds the next entry of every source
that has one, those in `skip` apart. -/
structure Feeds (m : Merge) (skip : ℕ → Prop) : Prop where
  failure : m.failure = none
  sound : ∀ s ∈ m.sources, s.failure = none
  sorted : ∀ s ∈ m.sources, s.entries.Pairwise fun v w => v.key < w.key
  behind : ∀ h ∈ m.heap, ∀ s, m.sources[h.source]? = some s → ∀ e ∈ s.entries, h.entry.key < e.key
  fed : ∀ i s, ¬ skip i → m.sources[i]? = some s → s.entries ≠ [] → ∃ h ∈ m.heap, h.source = i
  single : m.heap.Pairwise fun g h => g.source ≠ h.source
  skipped : ∀ h ∈ m.heap, ¬ skip h.source

theorem Feeds.nodup {m : Merge} {skip : ℕ → Prop} (hm : m.Feeds skip) : m.heap.Nodup :=
  hm.single.imp fun hne heq => hne (congrArg Head.source heq)

/-- Entries left when a source is replaced. -/
theorem sum_set {sources : List Source} {i : ℕ} {s : Source} (hs : sources[i]? = some s)
    (s' : Source) :
    ((sources.set i s').map fun s => s.entries.length).sum + s.entries.length
      = (sources.map fun s => s.entries.length).sum + s'.entries.length := by
  induction sources generalizing i with
  | nil => simp at hs
  | cons t sources ih =>
    cases i with
    | zero =>
      obtain rfl := Option.some.inj hs
      simp only [List.set_cons_zero, List.map_cons, List.sum_cons]
      omega
    | succ i =>
      have := ih (by simpa using hs)
      simp only [List.set_cons_succ, List.map_cons, List.sum_cons]
      omega

/-- What a pull can do: move an entry, meet an error, or find the source at its end. -/
theorem pull_cases (m : Merge) (i : ℕ) :
    (∃ e rest failure, m.sources[i]? = some ⟨e :: rest, failure⟩ ∧ m.pull i
        = { m with sources := m.sources.set i ⟨rest, failure⟩, heap := ⟨e, i⟩ :: m.heap })
    ∨ (∃ err, m.sources[i]? = some ⟨[], some err⟩ ∧ m.pull i
        = { m with sources := m.sources.set i ⟨[], none⟩, failure := m.failure.or (some err) })
    ∨ m.pull i = m ∧ ∀ s, m.sources[i]? = some s → s = ⟨[], none⟩ := by
  unfold Merge.pull
  split
  · rename_i e rest failure hs
    exact Or.inl ⟨e, rest, failure, hs, rfl⟩
  · rename_i err hs
    exact Or.inr (Or.inl ⟨err, hs, rfl⟩)
  · rename_i hs
    refine Or.inr (Or.inr ⟨rfl, fun s hs' => ?_⟩)
    rw [hs] at hs'
    exact (Option.some.inj hs').symm
  · rename_i hs
    refine Or.inr (Or.inr ⟨rfl, fun s hs' => ?_⟩)
    rw [hs] at hs'
    cases hs'

/-- Where no source fails, a pull moves an entry or does nothing. -/
theorem Feeds.pull_cases {m : Merge} {skip : ℕ → Prop} (hm : m.Feeds skip) (i : ℕ) :
    (∃ e rest, m.sources[i]? = some ⟨e :: rest, none⟩
      ∧ m.pull i = { m with sources := m.sources.set i ⟨rest, none⟩, heap := ⟨e, i⟩ :: m.heap })
    ∨ m.pull i = m ∧ ∀ s, m.sources[i]? = some s → s.entries = [] := by
  rcases m.pull_cases i with ⟨e, rest, failure, hs, heq⟩ | ⟨err, hs, -⟩ | ⟨heq, hend⟩
  · obtain rfl : failure = none := hm.sound _ (List.mem_of_getElem? hs)
    exact Or.inl ⟨e, rest, hs, heq⟩
  · cases hm.sound _ (List.mem_of_getElem? hs)
  · refine Or.inr ⟨heq, fun s hs => ?_⟩
    rw [hend s hs]

/-- Pulling from a source that has no entry in the heap feeds it again. -/
theorem Feeds.pull {m : Merge} {skip : ℕ → Prop} (hm : m.Feeds skip) {i : ℕ} (hi : skip i) :
    (m.pull i).Feeds fun j => skip j ∧ j ≠ i := by
  rcases hm.pull_cases i with ⟨e, rest, hs, heq⟩ | ⟨heq, hempty⟩
  · rw [heq]
    have hmem := List.mem_of_getElem? hs
    obtain ⟨hhead, hrest⟩ := List.pairwise_cons.mp (hm.sorted _ hmem)
    have hother : ∀ h ∈ m.heap, i ≠ h.source := fun h hh hsrc => hm.skipped h hh (hsrc ▸ hi)
    refine ⟨hm.failure, ?_, ?_, ?_, ?_, ?_, ?_⟩
    · intro s hs
      rcases List.mem_or_eq_of_mem_set hs with hs | rfl
      · exact hm.sound s hs
      · rfl
    · intro s hs
      rcases List.mem_or_eq_of_mem_set hs with hs | rfl
      · exact hm.sorted s hs
      · exact hrest
    · intro h hh s hs' f hf
      rcases List.mem_cons.mp hh with rfl | hh
      · rw [List.getElem?_set_self (List.getElem?_eq_some_iff.mp hs).1] at hs'
        obtain rfl := Option.some.inj hs'
        exact hhead f hf
      · rw [List.getElem?_set_ne (hother h hh)] at hs'
        exact hm.behind h hh s hs' f hf
    · intro j s hj hs' hne
      by_cases hij : i = j
      · exact ⟨⟨e, i⟩, List.mem_cons_self, hij⟩
      · rw [List.getElem?_set_ne hij] at hs'
        obtain ⟨h, hh, hsrc⟩ := hm.fed j s (fun hsk => hj ⟨hsk, Ne.symm hij⟩) hs' hne
        exact ⟨h, List.mem_cons_of_mem _ hh, hsrc⟩
    · exact List.pairwise_cons.mpr ⟨fun h hh => hother h hh, hm.single⟩
    · intro h hh hskip
      rcases List.mem_cons.mp hh with rfl | hh
      · exact hskip.2 rfl
      · exact hm.skipped h hh hskip.1
  · rw [heq]
    refine { hm with
      fed := fun j s hj hs hne => ?_
      skipped := fun h hh hs => hm.skipped h hh hs.1 }
    by_cases hij : j = i
    · exact absurd (hempty s (hij ▸ hs)) hne
    · exact hm.fed j s (fun hsk => hj ⟨hsk, hij⟩) hs hne

/-- Pulling loses nothing and brings in nothing new. -/
theorem Feeds.rem_pull {m : Merge} {skip : ℕ → Prop} (hm : m.Feeds skip) (i : ℕ) (h : Head) :
    (m.pull i).Rem h ↔ m.Rem h := by
  rcases hm.pull_cases i with ⟨e, rest, hs, heq⟩ | ⟨heq, -⟩
  · rw [heq]
    have hlt := (List.getElem?_eq_some_iff.mp hs).1
    constructor
    · rintro (hh | ⟨s, hs', hf⟩)
      · rcases List.mem_cons.mp hh with rfl | hh
        · exact Or.inr ⟨_, hs, List.mem_cons_self⟩
        · exact Or.inl hh
      · by_cases hij : i = h.source
        · rw [← hij, List.getElem?_set_self hlt] at hs'
          obtain rfl := Option.some.inj hs'
          exact Or.inr ⟨_, hij ▸ hs, List.mem_cons_of_mem _ hf⟩
        · rw [List.getElem?_set_ne hij] at hs'
          exact Or.inr ⟨s, hs', hf⟩
    · rintro (hh | ⟨s, hs', hf⟩)
      · exact Or.inl (List.mem_cons_of_mem _ hh)
      · by_cases hij : i = h.source
        · rw [← hij, hs] at hs'
          obtain rfl := Option.some.inj hs'
          rcases List.mem_cons.mp hf with he | hf
          · left
            rw [show h = ⟨e, i⟩ from by cases h; simp_all]
            exact List.mem_cons_self
          · exact Or.inr ⟨_, by rw [← hij, List.getElem?_set_self hlt], hf⟩
        · exact Or.inr ⟨s, by rw [List.getElem?_set_ne hij, hs'], hf⟩
  · rw [heq]

theorem size_pull (m : Merge) (i : ℕ) : (m.pull i).size = m.size := by
  rcases m.pull_cases i with ⟨e, rest, failure, hs, heq⟩ | ⟨err, hs, heq⟩ | ⟨heq, -⟩
  · rw [heq]
    have := sum_set hs ⟨rest, failure⟩
    simp only [List.length_cons] at this
    simp only [size, List.length_cons]
    omega
  · rw [heq]
    have := sum_set hs ⟨[], none⟩
    simp only [List.length_nil] at this
    simp only [size]
    omega
  · rw [heq]

/-! ### Popping the heap -/

theorem size_pop {m : Merge} {g : Head} (hg : g ∈ m.heap) : (m.pop g).size + 1 = m.size := by
  have hlen := List.length_erase_of_mem hg
  have hpos := List.length_pos_of_mem hg
  rw [pop, size_pull]
  simp only [size]
  omega

/-- Popping removes `g` and nothing else. -/
theorem Feeds.pop {m : Merge} (hm : m.Feeds fun _ => False) {g : Head} (hg : g ∈ m.heap) :
    (m.pop g).Feeds (fun _ => False) ∧ (∀ h, (m.pop g).Rem h ↔ m.Rem h ∧ h ≠ g)
      ∧ (m.pop g).size + 1 = m.size := by
  have hsub : (m.heap.erase g).Sublist m.heap := List.erase_sublist
  have hout : ({ m with heap := m.heap.erase g } : Merge).Feeds fun j => j = g.source := by
    refine { hm with
      behind := fun h hh => hm.behind h (hsub.subset hh)
      fed := fun i s hi hs hne => ?_
      single := hm.single.sublist hsub
      skipped := fun h hh hsrc => ?_ }
    · obtain ⟨h, hh, hsrc⟩ := hm.fed i s not_false hs hne
      have hne : h ≠ g := fun heq => hi (heq ▸ hsrc.symm)
      exact ⟨h, (List.mem_erase_of_ne hne).mpr hh, hsrc⟩
    · -- two heads of one source would be the same head
      obtain ⟨hne, hmem⟩ := (hm.nodup.mem_erase_iff).mp hh
      exact hne (List.inj_on_of_nodup_map (List.pairwise_map.mpr hm.single) hmem hg hsrc)
  refine ⟨?_, fun h => ?_, ?_⟩
  · refine { hout.pull rfl with fed := fun i s _ hs hne => ?_, skipped := fun _ _ => not_false }
    exact (hout.pull rfl).fed i s (fun hskip => hskip.2 hskip.1) hs hne
  · rw [Merge.pop, hout.rem_pull]
    constructor
    · rintro (hh | ⟨s, hs, hf⟩)
      · obtain ⟨hne, hmem⟩ := (hm.nodup.mem_erase_iff).mp hh
        exact ⟨Or.inl hmem, hne⟩
      · refine ⟨Or.inr ⟨s, hs, hf⟩, fun heq => ?_⟩
        subst heq
        exact lt_irrefl _ (hm.behind h hg s hs _ hf)
    · rintro ⟨hh | hh, hne⟩
      · exact Or.inl ((List.mem_erase_of_ne hne).mpr hh)
      · exact Or.inr hh
  · exact size_pop hg

/-- Whatever is still to come is behind some head of the heap. -/
theorem Feeds.exists_ahead {m : Merge} (hm : m.Feeds fun _ => False) {h : Head} (hh : m.Rem h) :
    ∃ g ∈ m.heap, g.Ahead h := by
  rcases hh with hh | ⟨s, hs, he⟩
  · exact ⟨h, hh, Head.Ahead.refl h⟩
  · obtain ⟨g, hg, hsrc⟩ := hm.fed h.source s not_false hs (List.ne_nil_of_mem he)
    exact ⟨g, hg, Or.inl (hm.behind g hg s (hsrc ▸ hs) _ he)⟩

/-- The greatest head comes before everything still to come. -/
theorem Feeds.greatest_ahead {m : Merge} (hm : m.Feeds fun _ => False) {g : Head}
    (hg : greatest m.heap = some g) {h : Head} (hh : m.Rem h) : g.Ahead h := by
  obtain ⟨f, hf, hahead⟩ := hm.exists_ahead hh
  exact ((greatest_spec hg).2 f hf).trans hahead

/-- The loop that drops the stale versions of `key`, once no smaller key is to come. -/
theorem Feeds.dropStale {key : Bytes} : ∀ {fuel : ℕ} {m : Merge}, m.Feeds (fun _ => False) →
    m.size ≤ fuel → (∀ h, m.Rem h → key ≤ h.entry.key) →
      (m.dropStale key fuel).Feeds (fun _ => False)
        ∧ (∀ h, (m.dropStale key fuel).Rem h ↔ m.Rem h ∧ h.entry.key ≠ key)
        ∧ (m.dropStale key fuel).size ≤ m.size
  | 0, m, hm, hfuel, _ => by
    have hempty : ∀ h, ¬ m.Rem h := by
      intro h hh
      obtain ⟨g, hg, -⟩ := hm.exists_ahead hh
      have := List.length_pos_of_mem hg
      simp only [size] at hfuel
      omega
    exact ⟨hm, fun h => ⟨fun hh => absurd hh (hempty h), fun hh => hh.1⟩, le_rfl⟩
  | fuel + 1, m, hm, hfuel, hkey => by
    rw [Merge.dropStale]
    cases hg : greatest m.heap with
    | none =>
      have hheap := greatest_eq_none.mp hg
      have hempty : ∀ h, ¬ m.Rem h := by
        intro h hh
        obtain ⟨g, hg, -⟩ := hm.exists_ahead hh
        rw [hheap] at hg
        cases hg
      exact ⟨hm, fun h => ⟨fun hh => absurd hh (hempty h), fun hh => hh.1⟩, le_rfl⟩
    | some g =>
      have hmem := (greatest_spec hg).1
      dsimp only
      split_ifs with hstale
      · obtain ⟨hfeeds, hrem, hsize⟩ := hm.pop hmem
        obtain ⟨hfeeds', hrem', hsize'⟩ := @Feeds.dropStale key fuel (m.pop g) hfeeds (by omega)
          fun h hh => hkey h ((hrem h).mp hh).1
        refine ⟨hfeeds', fun h => ?_, by omega⟩
        rw [hrem', hrem]
        constructor
        · exact fun hh => ⟨hh.1.1, hh.2⟩
        · exact fun hh => ⟨⟨hh.1, fun heq => hh.2 (heq ▸ hstale)⟩, hh.2⟩
      · -- the greatest head has a larger key, so everything has
        refine ⟨hm, fun h => ⟨fun hh => ⟨hh, fun heq => ?_⟩, fun hh => hh.1⟩, le_rfl⟩
        have hle := (hm.greatest_ahead hg hh).key_le
        exact hstale (le_antisymm (heq ▸ hle) (hkey g (Or.inl hmem)))

/-- **One call of `next`** returns the entry that comes before everything still to come, and
leaves the entries of larger keys; it returns nothing when nothing is to come. -/
theorem Feeds.next {m : Merge} (hm : m.Feeds fun _ => False) :
    (m.next = (none, m) ∧ ∀ h, ¬ m.Rem h)
      ∨ ∃ g m', m.next = (some (.ok g.entry), m') ∧ m.Rem g ∧ (∀ h, m.Rem h → g.Ahead h)
        ∧ m'.Feeds (fun _ => False) ∧ (∀ h, m'.Rem h ↔ m.Rem h ∧ h.entry.key ≠ g.entry.key)
        ∧ m'.size < m.size := by
  unfold Merge.next
  rw [hm.failure]
  dsimp only
  cases hg : greatest m.heap with
  | none =>
    refine Or.inl ⟨rfl, fun h hh => ?_⟩
    obtain ⟨g, hmem, -⟩ := hm.exists_ahead hh
    rw [greatest_eq_none.mp hg] at hmem
    cases hmem
  | some g =>
    have hmem := (greatest_spec hg).1
    have hahead := fun h (hh : m.Rem h) => hm.greatest_ahead hg hh
    obtain ⟨hfeeds, hrem, hsize⟩ := hm.pop hmem
    obtain ⟨hfeeds', hrem', hsize'⟩ := Feeds.dropStale hfeeds le_rfl
      fun h hh => (hahead h ((hrem h).mp hh).1).key_le
    refine Or.inr ⟨g, _, rfl, Or.inl hmem, hahead, hfeeds', fun h => ?_, ?_⟩
    · rw [hrem', hrem]
      constructor
      · exact fun hh => ⟨hh.1.1, hh.2⟩
      · exact fun hh => ⟨⟨hh.1, fun heq => hh.2 (heq ▸ rfl)⟩, hh.2⟩
    · omega

/-- **The merged stream** has strictly increasing keys; it holds for every key still to come the
entry that comes before its other versions. -/
theorem Feeds.toList : ∀ {fuel : ℕ} {m : Merge}, m.Feeds (fun _ => False) → m.size < fuel →
    ∃ l, m.toList fuel = .ok l ∧ l.Pairwise (fun v w => v.key < w.key)
      ∧ (∀ e ∈ l, ∃ g, m.Rem g ∧ g.entry = e ∧ ∀ h, m.Rem h → h.entry.key = e.key → g.Ahead h)
      ∧ ∀ h, m.Rem h → ∃ e ∈ l, e.key = h.entry.key
  | 0, _, _, hfuel => by omega
  | fuel + 1, m, hm, hfuel => by
    rw [Merge.toList]
    rcases hm.next with ⟨hnext, hempty⟩ | ⟨g, m', hnext, hg, hahead, hfeeds, hrem, hsize⟩
    · rw [hnext]
      exact ⟨[], rfl, List.Pairwise.nil, by simp, fun h hh => absurd hh (hempty h)⟩
    · rw [hnext]
      obtain ⟨l, hl, hsorted, hfrom, hto⟩ := @Feeds.toList fuel m' hfeeds (by omega)
      dsimp only
      rw [hl]
      refine ⟨g.entry :: l, rfl, List.pairwise_cons.mpr ⟨fun e he => ?_, hsorted⟩, ?_, ?_⟩
      · obtain ⟨h, hh, rfl, -⟩ := hfrom e he
        obtain ⟨hh, hne⟩ := (hrem h).mp hh
        exact lt_of_le_of_ne (hahead h hh).key_le (Ne.symm hne)
      · intro e he
        rcases List.mem_cons.mp he with rfl | he
        · exact ⟨g, hg, rfl, fun h hh _ => hahead h hh⟩
        · obtain ⟨f, hf, rfl, hbest⟩ := hfrom e he
          obtain ⟨hf', hne⟩ := (hrem f).mp hf
          exact ⟨f, hf', rfl, fun h hh hkey => hbest h ((hrem h).mpr ⟨hh, hkey ▸ hne⟩) hkey⟩
      · intro h hh
        by_cases hkey : h.entry.key = g.entry.key
        · exact ⟨g.entry, List.mem_cons_self, hkey.symm⟩
        · obtain ⟨e, he, hek⟩ := hto h ((hrem h).mpr ⟨hh, hkey⟩)
          exact ⟨e, List.mem_cons_of_mem _ he, hek⟩

/-! ### Merging whole tables -/

theorem Feeds.congr {m : Merge} {skip skip' : ℕ → Prop} (hm : m.Feeds skip)
    (hiff : ∀ i, skip i ↔ skip' i) : m.Feeds skip' :=
  { hm with
    fed := fun i s hi => hm.fed i s (mt (hiff i).mp hi)
    skipped := fun h hh hs => hm.skipped h hh ((hiff _).mpr hs) }

/-- A new merge holds the next entry of every source. -/
theorem feeds_new {sources : List Source} (hsound : ∀ s ∈ sources, s.failure = none)
    (hsorted : ∀ s ∈ sources, s.entries.Pairwise fun v w => v.key < w.key) :
    (new sources).Feeds (fun _ => False)
      ∧ ∀ h, (new sources).Rem h ↔ ∃ s, sources[h.source]? = some s ∧ h.entry ∈ s.entries := by
  -- after `k` pulls the sources from `k` on are still to be fed
  have hpulls : ∀ k, ((List.range k).foldl Merge.pull ⟨sources, [], none⟩).Feeds (fun j => k ≤ j)
      ∧ (∀ h, ((List.range k).foldl Merge.pull ⟨sources, [], none⟩).Rem h
        ↔ ∃ s, sources[h.source]? = some s ∧ h.entry ∈ s.entries)
      ∧ ((List.range k).foldl Merge.pull ⟨sources, [], none⟩).sources.length = sources.length := by
    intro k
    induction k with
    | zero =>
      refine ⟨⟨rfl, hsound, hsorted, by simp, fun i s hi => absurd (Nat.zero_le i) hi,
        List.Pairwise.nil, by simp⟩, fun h => ?_, rfl⟩
      simp [Rem]
    | succ k ih =>
      obtain ⟨hfeeds, hrem, hlen⟩ := ih
      rw [List.range_succ, List.foldl_append, List.foldl_cons, List.foldl_nil]
      refine ⟨(hfeeds.pull le_rfl).congr fun j => by omega,
        fun h => by rw [hfeeds.rem_pull, hrem], ?_⟩
      rcases hfeeds.pull_cases k with ⟨e, rest, -, heq⟩ | ⟨heq, -⟩
      · rw [heq, List.length_set, hlen]
      · rw [heq, hlen]
  obtain ⟨hfeeds, hrem, hlen⟩ := hpulls sources.length
  refine ⟨{ hfeeds with fed := fun i s _ hs => ?_, skipped := fun _ _ => not_false }, hrem⟩
  refine hfeeds.fed i s (not_le.mpr ?_) hs
  rw [← hlen]
  exact (List.getElem?_eq_some_iff.mp hs).1

/-- The entries a merge of whole tables yields. -/
def merged (inputs : List SsTable) : List Entry :=
  let m := new (inputs.map fun t => ⟨t.scan, none⟩)
  match m.toList (m.size + 1) with
  | .ok l => l
  | .error _ => []

/-- A merge of whole tables yields, in key order, the newest version of every key. -/
theorem merged_spec (inputs : List SsTable) :
    (merged inputs).Pairwise (fun v w => v.key < w.key)
      ∧ (∀ e ∈ merged inputs, (∃ t ∈ inputs, e ∈ t.run.entries)
        ∧ ∀ t ∈ inputs, ∀ f ∈ t.run.entries, f.key = e.key → f.seq ≤ e.seq)
      ∧ ∀ t ∈ inputs, ∀ f ∈ t.run.entries, ∃ e ∈ merged inputs, e.key = f.key := by
  set sources : List Source := inputs.map fun t => ⟨t.scan, none⟩ with hsources
  have hsound : ∀ s ∈ sources, s.failure = none := by
    intro s hs
    obtain ⟨t, -, rfl⟩ := List.mem_map.mp hs
    rfl
  have hsorted : ∀ s ∈ sources, s.entries.Pairwise fun v w => v.key < w.key := by
    intro s hs
    obtain ⟨t, -, rfl⟩ := List.mem_map.mp hs
    exact t.run.sorted
  obtain ⟨hfeeds, hrem⟩ := feeds_new hsound hsorted
  obtain ⟨l, hl, hinc, hfrom, hto⟩ := hfeeds.toList (Nat.lt_succ_self _)
  have hmerged : merged inputs = l := by
    rw [merged, ← hsources, hl]
  -- an entry of a table is still to come, from the position of the table
  have hin : ∀ t ∈ inputs, ∀ f ∈ t.run.entries, ∃ i, (new sources).Rem ⟨f, i⟩ := by
    intro t ht f hf
    obtain ⟨i, hi, hget⟩ := List.mem_iff_getElem.mp ht
    refine ⟨i, (hrem _).mpr ⟨⟨t.scan, none⟩, ?_, hf⟩⟩
    rw [hsources, List.getElem?_map, List.getElem?_eq_getElem hi, hget]
    rfl
  rw [hmerged]
  refine ⟨hinc, fun e he => ?_, fun t ht f hf => ?_⟩
  · obtain ⟨g, hg, rfl, hbest⟩ := hfrom e he
    obtain ⟨s, hs, hmem⟩ := (hrem g).mp hg
    refine ⟨?_, fun t ht f hf hkey => ?_⟩
    · rw [hsources, List.getElem?_map, Option.map_eq_some_iff] at hs
      obtain ⟨t, ht, rfl⟩ := hs
      exact ⟨t, List.mem_of_getElem? ht, hmem⟩
    · obtain ⟨i, hi⟩ := hin t ht f hf
      rcases hbest _ hi hkey with hlt | ⟨-, hlt | ⟨heq, -⟩⟩
      · exact absurd hkey.symm hlt.ne
      · exact hlt.le
      · exact heq.symm.le
  · obtain ⟨i, hi⟩ := hin t ht f hf
    exact hto _ hi

/-- The merged stream as a run. -/
def mergeTables (inputs : List SsTable) : Run Bytes Bytes :=
  ⟨merged inputs, (merged_spec inputs).1⟩

end Merge

end Lsmkv
