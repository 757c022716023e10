import Lsmkv.Compaction.Merge
import Lsmkv.Lib.Iter

/-!
# Merging sources that may fail (`compaction::Merge`)

An error a pull meets is kept for the next call, which returns it and empties the heap.  Until then
the merge does exactly what it would do if its sources ended where they fail: `readable` forgets the
errors, every operation commutes with it (`readable_pull`, `next_readable`), and what a merge
without errors yields is known from `Lsmkv.Compaction.Merge`.

`Guarded m` says that every source that is going to fail still has an entry in the heap.  A call
then returns no key behind the last readable one of such a source, and the error is met before the
heap is empty (`yields_of_guarded`).
-/

namespace Lsmkv

/-- The source without the error it ends in. -/
def Source.readable (s : Source) : Source := ⟨s.entries, none⟩

namespace Merge

/-! ### Without the errors -/

/-- The merge of the entries that can be read. -/
def readable (m : Merge) : Merge := ⟨m.sources.map Source.readable, m.heap, none⟩

theorem readable_pull (m : Merge) (i : ℕ) : (m.pull i).readable = m.readable.pull i := by
  have hget : m.readable.sources[i]? = (m.sources[i]?).map Source.readable := List.getElem?_map ..
  rcases m.pull_cases i with ⟨e, rest, failure, hs, heq⟩ | ⟨err, hs, heq⟩ | ⟨heq, hend⟩
  · rw [hs] at hget
    rw [heq, Merge.pull, hget]
    simp [readable, List.map_set, Source.readable]
  · -- the source was at the end of its entries, so all that goes is the error
    rw [hs] at hget
    have hset : m.readable.sources.set i ⟨[], none⟩ = m.readable.sources := by
      obtain ⟨hi, hself⟩ := List.getElem?_eq_some_iff.mp hget
      rw [show (⟨[], none⟩ : Source) = m.readable.sources[i] from hself.symm, List.set_getElem_self]
    have hstay : m.readable.pull i = m.readable := by
      rw [Merge.pull, hget]
      rfl
    rw [heq, hstay]
    unfold readable at hset ⊢
    rw [List.map_set]
    exact congrArg (Merge.mk · m.heap none) hset
  · rw [heq]
    unfold Merge.pull
    rw [hget]
    cases hs : m.sources[i]? with
    | none => rfl
    | some s =>
      rw [hend s hs]
      rfl

theorem readable_pop (m : Merge) (head : Head) : (m.pop head).readable = m.readable.pop head :=
  readable_pull _ _

theorem size_readable (m : Merge) : m.readable.size = m.size := by
  simp [size, readable, Source.readable, Function.comp_def]

theorem readable_dropStale (key : Bytes) (fuel : ℕ) (m : Merge) :
    (m.dropStale key fuel).readable = m.readable.dropStale key fuel := by
  induction fuel generalizing m with
  | zero => rfl
  | succ fuel ih =>
    rw [dropStale, dropStale, show m.readable.heap = m.heap from rfl]
    cases greatest m.heap with
    | none => rfl
    | some stale =>
      dsimp only
      split_ifs
      · rw [ih, readable_pop]
      · rfl

/-- **Until an error is due the merge yields what it would yield without errors.** -/
theorem next_readable {m : Merge} (hfailure : m.failure = none) :
    m.readable.next = (m.next.1, m.next.2.readable) := by
  unfold Merge.next
  rw [hfailure, show m.readable.failure = none from rfl]
  dsimp only
  rw [show m.readable.heap = m.heap from rfl]
  cases greatest m.heap with
  | none => rfl
  | some head =>
    dsimp only
    rw [readable_dropStale, readable_pop, ← size_readable (m.pop head), readable_pop]

theorem readable_foldl_pull (pulls : List ℕ) (m : Merge) :
    (pulls.foldl Merge.pull m).readable = pulls.foldl Merge.pull m.readable := by
  induction pulls generalizing m with
  | nil => rfl
  | cons i pulls ih => rw [List.foldl_cons, ih, readable_pull, List.foldl_cons]

theorem readable_new (sources : List Source) :
    (new sources).readable = new (sources.map Source.readable) := by
  rw [new, readable_foldl_pull, new, List.length_map]
  rfl

/-- Sources that do not fail are readable as they are. -/
theorem map_readable_eq {sources : List Source} (hsound : ∀ s ∈ sources, s.failure = none) :
    sources.map Source.readable = sources := by
  have hid : ∀ s ∈ sources, s.readable = id s := by
    rintro ⟨entries, failure⟩ hs
    obtain rfl : failure = none := hsound _ hs
    rfl
  rw [List.map_congr_left hid, List.map_id]

/-! ### Where an error comes from -/

/-- The error that is due and those the sources end in. -/
def errors (m : Merge) : List Error := m.failure.toList ++ m.sources.filterMap Source.failure

theorem mem_errors {m : Merge} {err : Error} :
    err ∈ m.errors ↔ m.failure = some err ∨ ∃ s ∈ m.sources, s.failure = some err := by
  simp [errors]

theorem errors_pull (m : Merge) (i : ℕ) : ∀ err ∈ (m.pull i).errors, err ∈ m.errors := by
  intro err herr
  rcases m.pull_cases i with ⟨e, rest, failure, hs, heq⟩ | ⟨err', hs, heq⟩ | ⟨heq, -⟩
  · rw [heq, mem_errors] at herr
    rw [mem_errors]
    refine herr.imp_right fun ⟨s, hmem, hfail⟩ => ?_
    rcases List.mem_or_eq_of_mem_set hmem with hmem | rfl
    · exact ⟨s, hmem, hfail⟩
    · exact ⟨_, List.mem_of_getElem? hs, hfail⟩
  · rw [heq, mem_errors] at herr
    rw [mem_errors]
    rcases herr with hfail | ⟨s, hmem, hfail⟩
    · rw [Option.or_eq_some_iff] at hfail
      rcases hfail with hfail | ⟨-, hfail⟩
      · exact Or.inl hfail
      · exact Or.inr ⟨_, List.mem_of_getElem? hs, hfail⟩
    · rcases List.mem_or_eq_of_mem_set hmem with hmem | rfl
      · exact Or.inr ⟨s, hmem, hfail⟩
      · cases hfail
  · rwa [heq] at herr

/-- An error that is due stays due. -/
theorem failure_of_pull {m : Merge} {i : ℕ} (h : (m.pull i).failure = none) : m.failure = none := by
  rcases m.pull_cases i with ⟨e, rest, failure, -, heq⟩ | ⟨err, -, heq⟩ | ⟨heq, -⟩
  · rwa [heq] at h
  · rw [heq] at h
    exact (Option.or_eq_none_iff.mp h).1
  · rwa [heq] at h

/-- As long as no error is met, the sources end in what they ended in. -/
theorem failures_pull {m : Merge} {i : ℕ} (h : (m.pull i).failure = none) :
    (m.pull i).sources.map Source.failure = m.sources.map Source.failure := by
  rcases m.pull_cases i with ⟨e, rest, failure, hs, heq⟩ | ⟨err, -, heq⟩ | ⟨heq, -⟩
  · obtain ⟨hi, hself⟩ := List.getElem?_eq_some_iff.mp hs
    have hlen : i < (m.sources.map Source.failure).length := by rwa [List.length_map]
    have hfail : (m.sources.map Source.failure)[i] = failure := by rw [List.getElem_map, hself]
    rw [heq, List.map_set]
    conv_lhs => rw [← hfail]
    exact List.set_getElem_self _
  · rw [heq] at h
    cases (Option.or_eq_none_iff.mp h).2
  · rw [heq]

/-! ### Sources that are going to fail -/

/-- Every source that is going to fail has an entry in the heap, those in `skip` apart. -/
def Guarded (m : Merge) (skip : ℕ → Prop) : Prop :=
  ∀ i s, ¬ skip i → m.sources[i]? = some s → s.failure ≠ none → ∃ h ∈ m.heap, h.source = i

theorem Guarded.pull {m : Merge} {skip : ℕ → Prop} (hm : m.Guarded skip) {i : ℕ}
    (hfailure : (m.pull i).failure = none) : (m.pull i).Guarded fun j => skip j ∧ j ≠ i := by
  intro j s hj hs hfail
  rcases m.pull_cases i with ⟨e, rest, failure, hsi, heq⟩ | ⟨err, -, heq⟩ | ⟨heq, hend⟩
  · rw [heq] at hs ⊢
    by_cases hij : i = j
    · exact ⟨⟨e, i⟩, List.mem_cons_self, hij⟩
    · rw [List.getElem?_set_ne hij] at hs
      obtain ⟨h, hh, hsrc⟩ := hm j s (fun hsk => hj ⟨hsk, Ne.symm hij⟩) hs hfail
      exact ⟨h, List.mem_cons_of_mem _ hh, hsrc⟩
  · rw [heq] at hfailure
    cases (Option.or_eq_none_iff.mp hfailure).2
  · rw [heq] at hs ⊢
    by_cases hij : j = i
    · rw [hend s (hij ▸ hs)] at hfail
      exact absurd rfl hfail
    · exact hm j s (fun hsk => hj ⟨hsk, hij⟩) hs hfail

/-- What a step leaves of the errors: none is due, the sources end in what they ended in, and the
entries of those that are going to fail are still in the heap. -/
structure Unbroken (m m' : Merge) : Prop where
  failure : m.failure = none
  failures : m'.sources.map Source.failure = m.sources.map Source.failure
  guarded : (m.Guarded fun _ => False) → m'.Guarded fun _ => False

theorem unbroken_pop {m : Merge} {g : Head} (hfailure : (m.pop g).failure = none) :
    m.Unbroken (m.pop g) := by
  have hout : (m.Guarded fun _ => False) →
      ({ m with heap := m.heap.erase g } : Merge).Guarded fun j => j = g.source := by
    intro hm i s hi hs hfail
    obtain ⟨h, hh, hsrc⟩ := hm i s not_false hs hfail
    have hne : h ≠ g := fun heq => hi (heq ▸ hsrc.symm)
    exact ⟨h, (List.mem_erase_of_ne hne).mpr hh, hsrc⟩
  refine ⟨@failure_of_pull { m with heap := m.heap.erase g } _ hfailure, failures_pull hfailure,
    fun hm i s _ hs hfail => ?_⟩
  exact (hout hm).pull hfailure i s (fun hskip => hskip.2 hskip.1) hs hfail

theorem Unbroken.trans {m m' m'' : Merge} (h : m.Unbroken m') (h' : m'.Unbroken m'') :
    m.Unbroken m'' :=
  ⟨h.failure, h'.failures.trans h.failures, fun hm => h'.guarded (h.guarded hm)⟩

theorem unbroken_dropStale {key : Bytes} {fuel : ℕ} {m : Merge}
    (hfailure : (m.dropStale key fuel).failure = none) : m.Unbroken (m.dropStale key fuel) := by
  induction fuel generalizing m with
  | zero => exact ⟨hfailure, rfl, id⟩
  | succ fuel ih =>
    rw [dropStale] at hfailure ⊢
    cases hg : greatest m.heap with
    | none =>
      rw [hg] at hfailure
      exact ⟨hfailure, rfl, id⟩
    | some stale =>
      rw [hg] at hfailure
      dsimp only at hfailure ⊢
      split_ifs at hfailure ⊢ with hstale
      · have hrest := ih hfailure
        exact (unbroken_pop hrest.failure).trans hrest
      · exact ⟨hfailure, rfl, id⟩

theorem errors_dropStale (key : Bytes) (fuel : ℕ) (m : Merge) :
    ∀ err ∈ (m.dropStale key fuel).errors, err ∈ m.errors := by
  induction fuel generalizing m with
  | zero => exact fun err herr => herr
  | succ fuel ih =>
    rw [dropStale]
    cases greatest m.heap with
    | none => exact fun err herr => herr
    | some stale =>
      dsimp only
      split_ifs
      · exact fun err herr =>
          errors_pull { m with heap := m.heap.erase stale } stale.source err (ih _ err herr)
      · exact fun err herr => herr

/-- The next call of a merge that has no error due, against the merge without errors: the same item,
and then either an error is due or no source failed. -/
theorem next_cases {m : Merge} (hfailure : m.failure = none) :
    (∀ err ∈ m.next.2.errors, err ∈ m.errors)
      ∧ (m.next.2.failure = none → m.Unbroken m.next.2) := by
  unfold Merge.next
  rw [hfailure]
  dsimp only
  cases greatest m.heap with
  | none => exact ⟨fun err herr => herr, fun _ => ⟨hfailure, rfl, id⟩⟩
  | some head =>
    dsimp only
    refine ⟨fun err herr => ?_, fun hnone => ?_⟩
    · exact errors_pull { m with heap := m.heap.erase head } head.source err
        (errors_dropStale _ _ _ err herr)
    · have hrest := unbroken_dropStale hnone
      exact (unbroken_pop hrest.failure).trans hrest

/-- A merge whose error is due returns it once. -/
theorem yields_failure {m : Merge} {err : Error} (h : m.failure = some err) :
    Yields next m [.error err] := by
  have hnext : m.next = (some (.error err), { m with failure := none, heap := [] }) := by
    rw [Merge.next, h]
  exact Yields.item hnext (Yields.of_eq rfl)

/-- Reading a merge without errors to its end. -/
theorem Feeds.yields {fuel : ℕ} {m : Merge} (hm : m.Feeds fun _ => False) (hsize : m.size < fuel)
    {l : List Entry} (hl : m.toList fuel = .ok l) : Yields Merge.next m (l.map .ok) := by
  induction fuel generalizing m l with
  | zero => omega
  | succ fuel ih =>
    rw [Merge.toList] at hl
    rcases hm.next with ⟨hnext, -⟩ | ⟨g, m', hnext, -, -, hfeeds, -, hsize'⟩
    · rw [hnext] at hl
      obtain rfl := Except.ok.inj hl
      exact Yields.of_eq hnext
    · rw [hnext] at hl
      obtain ⟨rest, hrest, -⟩ := @Feeds.toList fuel m' hfeeds (by omega)
      dsimp only at hl
      rw [hrest] at hl
      obtain rfl := Except.ok.inj hl
      exact Yields.item hnext (ih hfeeds (by omega) hrest)

/-- The first item of a merge without errors. -/
theorem yields_cons {m m' : Merge} {e : Entry} {full : List Entry}
    (hnext : m.next = (some (.ok e), m')) (hfull : Yields next m (full.map .ok)) :
    ∃ rest, full = e :: rest ∧ Yields next m' (rest.map .ok) := by
  cases full with
  | nil =>
    cases hfull with
    | done hdone =>
      have hnone : m.next.1 = none := hdone 0
      rw [hnext] at hnone
      cases hnone
  | cons f rest =>
    cases hfull with
    | item hitem hrest =>
      rw [hnext] at hitem
      obtain ⟨he, rfl⟩ := Prod.mk.inj hitem
      obtain rfl := Except.ok.inj (Option.some.inj he)
      exact ⟨rest, rfl, hrest⟩

theorem Guarded.exists_rem {m : Merge} (hm : m.Guarded fun _ => False) {i : ℕ} {s : Source}
    (hs : m.sources[i]? = some s) (hfail : s.failure ≠ none) :
    ∃ h, m.readable.Rem h ∧ h.source = i := by
  obtain ⟨h, hh, hsrc⟩ := hm i s not_false hs hfail
  exact ⟨h, Or.inl hh, hsrc⟩

/-- A source of a merge nothing happened to fails as it did. -/
theorem Unbroken.exists_source {m m' : Merge} (h : m.Unbroken m') {i : ℕ} {s : Source}
    (hs : m.sources[i]? = some s) : ∃ s', m'.sources[i]? = some s' ∧ s'.failure = s.failure := by
  have hget : (m'.sources.map Source.failure)[i]? = some s.failure := by
    rw [h.failures, List.getElem?_map, hs]
    rfl
  rw [List.getElem?_map, Option.map_eq_some_iff] at hget
  exact hget

/-- **A merge one of whose sources is going to fail.**  It yields what the merge without errors
yields first, no key behind the readable ones of a source that is going to fail, and then an
error. -/
theorem yields_of_guarded {n : ℕ} {m : Merge} (hsize : m.size < n) (hfailure : m.failure = none)
    (hm : m.readable.Feeds fun _ => False) (hguarded : m.Guarded fun _ => False)
    {j : ℕ} {failing : Source} (hj : m.sources[j]? = some failing) (hfails : failing.failure ≠ none)
    {full : List Entry} (hfull : Yields next m.readable (full.map .ok)) :
    ∃ l rest err, full = l ++ rest ∧ err ∈ m.errors
      ∧ Yields next m (l.map .ok ++ [.error err])
      ∧ ∀ e ∈ l, ∀ i s, m.sources[i]? = some s → s.failure ≠ none →
          ∃ h, m.readable.Rem h ∧ h.source = i ∧ e.key ≤ h.entry.key := by
  induction n generalizing m failing full with
  | zero => omega
  | succ n ih =>
    rcases hm.next with ⟨-, hempty⟩ | ⟨g, r, hnext, -, hahead, hfeeds, hrem, hless⟩
    · -- the source that is going to fail has something in the heap
      obtain ⟨h, hh, -⟩ := hguarded.exists_rem hj hfails
      exact absurd hh (hempty h)
    · have hbound : ∀ i s, m.sources[i]? = some s → s.failure ≠ none →
          ∃ h, m.readable.Rem h ∧ h.source = i ∧ g.entry.key ≤ h.entry.key := by
        intro i s hs hfail
        obtain ⟨h, hh, hsrc⟩ := hguarded.exists_rem hs hfail
        exact ⟨h, hh, hsrc, (hahead h hh).key_le⟩
      obtain ⟨rest, rfl, hrest⟩ := yields_cons hnext hfull
      rw [next_readable hfailure] at hnext
      obtain ⟨hitem, rfl⟩ := Prod.mk.inj hnext
      have hstep : m.next = (some (.ok g.entry), m.next.2) := Prod.ext hitem rfl
      obtain ⟨herrors, hunbroken⟩ := next_cases hfailure
      cases hfail : m.next.2.failure with
      | some err =>
        -- the refill after this entry failed: the entry is out, the error is next
        refine ⟨[g.entry], rest, err, rfl, herrors err (mem_errors.mpr (Or.inl hfail)),
          Yields.item hstep (yields_failure hfail), fun e he => ?_⟩
        rw [List.mem_singleton.mp he]
        exact hbound
      | none =>
        have hkept := hunbroken hfail
        obtain ⟨failing', hj', hfails'⟩ := hkept.exists_source hj
        rw [size_readable, size_readable] at hless
        obtain ⟨l, rest, err, rfl, herr, hyields, hl⟩ := ih (by omega) hfail hfeeds
          (hkept.guarded hguarded) hj' (hfails'.trans_ne hfails) hrest
        refine ⟨g.entry :: l, rest, err, rfl, herrors err herr, Yields.item hstep hyields, ?_⟩
        intro e he i s hs hsfail
        rcases List.mem_cons.mp he with rfl | he
        · exact hbound i s hs hsfail
        · obtain ⟨s', hs', hsame⟩ := hkept.exists_source hs
          obtain ⟨h, hh, hsrc, hle⟩ := hl e he i s' hs' (hsame.trans_ne hsfail)
          exact ⟨h, ((hrem h).mp hh).1, hsrc, hle⟩

/-! ### How much a merge yields -/

theorem size_dropStale (key : Bytes) (fuel : ℕ) (m : Merge) :
    (m.dropStale key fuel).size ≤ m.size := by
  induction fuel generalizing m with
  | zero => exact le_rfl
  | succ fuel ih =>
    rw [dropStale]
    cases hg : greatest m.heap with
    | none => exact le_rfl
    | some stale =>
      dsimp only
      split_ifs
      · have := size_pop (greatest_spec hg).1
        exact (ih _).trans (by omega)
      · exact le_rfl

/-- Every entry a merge yields is consumed. -/
theorem size_next {m m' : Merge} {e : Entry} (h : m.next = (some (.ok e), m')) :
    m'.size < m.size := by
  unfold Merge.next at h
  cases hfailure : m.failure with
  | some err =>
    rw [hfailure] at h
    cases (Prod.mk.inj h).1
  | none =>
    rw [hfailure] at h
    dsimp only at h
    cases hg : greatest m.heap with
    | none =>
      rw [hg] at h
      cases (Prod.mk.inj h).1
    | some head =>
      rw [hg] at h
      obtain ⟨-, rfl⟩ := Prod.mk.inj h
      have := size_pop (greatest_spec hg).1
      have := size_dropStale head.entry.key (m.pop head).size (m.pop head)
      omega

/-- An error is the last item. -/
theorem exhausted_of_error {m m' : Merge} {err : Error} (h : m.next = (some (.error err), m')) :
    Exhausted next m' := by
  unfold Merge.next at h
  cases hfailure : m.failure with
  | some err' =>
    rw [hfailure] at h
    obtain ⟨-, rfl⟩ := Prod.mk.inj h
    exact exhausted_of_eq rfl
  | none =>
    rw [hfailure] at h
    dsimp only at h
    cases hg : greatest m.heap with
    | none =>
      rw [hg] at h
      cases (Prod.mk.inj h).1
    | some head =>
      rw [hg] at h
      cases (Prod.mk.inj h).1

theorem length_le_of_yields {m : Merge} {l : List (Except Error Entry)} (h : Yields next m l) :
    l.length ≤ m.size + 1 := by
  induction h with
  | done => exact Nat.zero_le _
  | @item m m' a l hitem hrest ih =>
    cases a with
    | ok e =>
      have := size_next hitem
      rw [List.length_cons]
      omega
    | error err =>
      rw [hrest.eq_nil (exhausted_of_error hitem), List.length_singleton]
      omega

/-! ### A new merge -/

/-- Either an error is due at once, or every source that is going to fail has an entry in the
heap. -/
theorem guarded_new {sources : List Source} (hfailure : (new sources).failure = none) :
    (new sources).Guarded (fun _ => False)
      ∧ (new sources).sources.map Source.failure = sources.map Source.failure := by
  have hpulls : ∀ k, ((List.range k).foldl Merge.pull ⟨sources, [], none⟩).failure = none →
      ((List.range k).foldl Merge.pull ⟨sources, [], none⟩).Guarded (fun j => k ≤ j)
      ∧ ((List.range k).foldl Merge.pull ⟨sources, [], none⟩).sources.map Source.failure
        = sources.map Source.failure := by
    intro k
    induction k with
    | zero => exact fun _ => ⟨fun i s hi => absurd (Nat.zero_le i) hi, rfl⟩
    | succ k ih =>
      rw [List.range_succ, List.foldl_append, List.foldl_cons, List.foldl_nil]
      intro hnone
      obtain ⟨hguarded, hfailures⟩ := ih (failure_of_pull hnone)
      refine ⟨fun i s hi => hguarded.pull hnone i s (by omega), ?_⟩
      rw [failures_pull hnone, hfailures]
  obtain ⟨hguarded, hfailures⟩ := hpulls sources.length hfailure
  refine ⟨fun i s _ hs => hguarded i s (not_le.mpr ?_) hs, hfailures⟩
  have hlen := congrArg List.length hfailures
  rw [List.length_map, List.length_map] at hlen
  rw [← hlen]
  exact (List.getElem?_eq_some_iff.mp hs).1

theorem errors_new (sources : List Source) :
    ∀ err ∈ (new sources).errors, ∃ s ∈ sources, s.failure = some err := by
  have hpulls : ∀ (pulls : List ℕ) (m : Merge),
      ∀ err ∈ (pulls.foldl Merge.pull m).errors, err ∈ m.errors := by
    intro pulls
    induction pulls with
    | nil => exact fun m err herr => herr
    | cons i pulls ih => exact fun m err herr => errors_pull m i err (ih _ err herr)
  intro err herr
  have hmem := mem_errors.mp (hpulls _ _ err herr)
  simpa using hmem

/-- The merge of sorted sources: strictly increasing keys, of every key the entry of the highest
number, and of equal numbers that of the first source. -/
structure IsMerge (sources : List Source) (full : List Entry) : Prop where
  sorted : full.Pairwise fun v w => v.key < w.key
  newest : ∀ e ∈ full, ∃ (i : ℕ) (s : Source), sources[i]? = some s ∧ e ∈ s.entries
    ∧ ∀ (j : ℕ) (s' : Source), sources[j]? = some s' → ∀ f ∈ s'.entries, f.key = e.key →
      f.seq < e.seq ∨ f.seq = e.seq ∧ i ≤ j
  complete : ∀ s ∈ sources, ∀ f ∈ s.entries, ∃ e ∈ full, e.key = f.key

/-- What a new merge yields but for errors. -/
theorem exists_full {sources : List Source}
    (hsorted : ∀ s ∈ sources, s.entries.Pairwise fun v w => v.key < w.key) :
    ∃ full : List Entry, IsMerge sources full
      ∧ Yields next (new sources).readable (full.map .ok)
      ∧ (new sources).readable.Feeds (fun _ => False)
      ∧ ∀ h, (new sources).readable.Rem h
        ↔ ∃ s, sources[h.source]? = some s ∧ h.entry ∈ s.entries := by
  have hsound : ∀ s ∈ sources.map Source.readable, s.failure = none := by
    intro s hs
    obtain ⟨s, -, rfl⟩ := List.mem_map.mp hs
    rfl
  have hsorted' : ∀ s ∈ sources.map Source.readable, s.entries.Pairwise fun v w =>
      v.key < w.key := by
    intro s hs
    obtain ⟨s, hmem, rfl⟩ := List.mem_map.mp hs
    exact hsorted s hmem
  rw [readable_new]
  obtain ⟨hfeeds, hrem'⟩ := feeds_new hsound hsorted'
  have hrem : ∀ h, (new (sources.map Source.readable)).Rem h
      ↔ ∃ s, sources[h.source]? = some s ∧ h.entry ∈ s.entries := by
    intro h
    rw [hrem', List.getElem?_map]
    constructor
    · rintro ⟨s, hs, hmem⟩
      obtain ⟨s', hs', rfl⟩ := Option.map_eq_some_iff.mp hs
      exact ⟨s', hs', hmem⟩
    · rintro ⟨s, hs, hmem⟩
      exact ⟨s.readable, by rw [hs]; rfl, hmem⟩
  obtain ⟨full, hfull, hinc, hfrom, hto⟩ := hfeeds.toList (Nat.lt_succ_self _)
  refine ⟨full, ⟨hinc, fun e he => ?_, fun s hs f hf => ?_⟩,
    hfeeds.yields (Nat.lt_succ_self _) hfull, hfeeds, hrem⟩
  · obtain ⟨g, hg, rfl, hbest⟩ := hfrom e he
    obtain ⟨s, hs, hmem⟩ := (hrem g).mp hg
    refine ⟨g.source, s, hs, hmem, fun j s' hs' f hf hkey => ?_⟩
    rcases hbest ⟨f, j⟩ ((hrem ⟨f, j⟩).mpr ⟨s', hs', hf⟩) hkey with hlt | ⟨-, hlt | ⟨heq, hle⟩⟩
    · exact absurd hkey.symm hlt.ne
    · exact Or.inl hlt
    · exact Or.inr ⟨heq.symm, hle⟩
  · obtain ⟨i, hi⟩ := List.getElem?_of_mem hs
    exact hto ⟨f, i⟩ ((hrem ⟨f, i⟩).mpr ⟨s, hi, hf⟩)

/-- A merge of sources that do not fail. -/
theorem yields_full {sources : List Source} {full : List Entry}
    (hfull : Yields next (new sources).readable (full.map .ok))
    (hsound : ∀ s ∈ sources, s.failure = none) : Yields next (new sources) (full.map .ok) := by
  rwa [readable_new, map_readable_eq hsound] at hfull

/-- A merge of sources one of which fails. -/
theorem yields_error {sources : List Source} {full : List Entry}
    (hfull : Yields next (new sources).readable (full.map .ok))
    (hfeeds : (new sources).readable.Feeds fun _ => False)
    (hrem : ∀ h, (new sources).readable.Rem h
      ↔ ∃ s, sources[h.source]? = some s ∧ h.entry ∈ s.entries)
    (hfails : ∃ s ∈ sources, s.failure ≠ none) :
    ∃ l rest err, full = l ++ rest ∧ (∃ s ∈ sources, s.failure = some err)
      ∧ Yields next (new sources) (l.map .ok ++ [.error err])
      ∧ ∀ e ∈ l, ∀ s ∈ sources, s.failure ≠ none → ∃ f ∈ s.entries, e.key ≤ f.key := by
  obtain ⟨failing, hfailing, hfails⟩ := hfails
  cases hfailure : (new sources).failure with
  | some err =>
    exact ⟨[], full, err, rfl, errors_new sources err (mem_errors.mpr (Or.inl hfailure)),
      yields_failure hfailure, by simp⟩
  | none =>
    obtain ⟨hguarded, hfailures⟩ := guarded_new hfailure
    have hsource : ∀ {i : ℕ} {s : Source}, sources[i]? = some s →
        ∃ s', (new sources).sources[i]? = some s' ∧ s'.failure = s.failure := by
      intro i s hs
      have hget : ((new sources).sources.map Source.failure)[i]? = some s.failure := by
        rw [hfailures, List.getElem?_map, hs]
        rfl
      rwa [List.getElem?_map, Option.map_eq_some_iff] at hget
    obtain ⟨j, hj⟩ := List.getElem?_of_mem hfailing
    obtain ⟨failing', hj', hfails'⟩ := hsource hj
    obtain ⟨l, rest, err, rfl, herr, hyields, hl⟩ := yields_of_guarded (Nat.lt_succ_self _)
      hfailure hfeeds hguarded hj' (hfails'.trans_ne hfails) hfull
    refine ⟨l, rest, err, rfl, errors_new sources err herr, hyields, fun e he s hs hsfail => ?_⟩
    obtain ⟨i, hi⟩ := List.getElem?_of_mem hs
    obtain ⟨s', hi', hsame⟩ := hsource hi
    obtain ⟨h, hh, rfl, hle⟩ := hl e he i s' hi' (hsame.trans_ne hsfail)
    obtain ⟨s'', hs'', hmem⟩ := (hrem h).mp hh
    rw [hi] at hs''
    obtain rfl := Option.some.inj hs''
    exact ⟨h.entry, hmem, hle⟩

/-- **What a merge yields.**  There is one list for the entries that can be read: strictly
increasing keys, of every key the entry of the highest number, and of equal numbers that of the
first source. If no source fails the merge yields it and ends.  If a source fails, the merge yields
a first part of it that no failed source could have held a newer version for, then one error, and
ends. -/
theorem yields_new {sources : List Source}
    (hsorted : ∀ s ∈ sources, s.entries.Pairwise fun v w => v.key < w.key) :
    ∃ full : List Entry, full.Pairwise (fun v w => v.key < w.key)
      ∧ (∀ e ∈ full, ∃ (i : ℕ) (s : Source), sources[i]? = some s ∧ e ∈ s.entries
        ∧ ∀ (j : ℕ) (s' : Source), sources[j]? = some s' → ∀ f ∈ s'.entries, f.key = e.key →
          f.seq < e.seq ∨ f.seq = e.seq ∧ i ≤ j)
      ∧ (∀ s ∈ sources, ∀ f ∈ s.entries, ∃ e ∈ full, e.key = f.key)
      ∧ ((∀ s ∈ sources, s.failure = none) → Yields next (new sources) (full.map .ok))
      ∧ ((∃ s ∈ sources, s.failure ≠ none) → ∃ l err, l <+: full
        ∧ (∃ s ∈ sources, s.failure = some err)
        ∧ Yields next (new sources) (l.map .ok ++ [.error err])
        ∧ ∀ e ∈ l, ∀ s ∈ sources, s.failure ≠ none → ∀ more : List Entry,
          (s.entries ++ more).Pairwise (fun v w => v.key < w.key) → ∀ f ∈ more, e.key < f.key) := by
  obtain ⟨full, hmerge, hfull, hfeeds, hrem⟩ := exists_full hsorted
  refine ⟨full, hmerge.sorted, hmerge.newest, hmerge.complete, yields_full hfull, fun hfails => ?_⟩
  obtain ⟨l, rest, err, rfl, herr, hyields, hl⟩ := yields_error hfull hfeeds hrem hfails
  refine ⟨l, err, ⟨rest, rfl⟩, herr, hyields, fun e he s hs hsfail more hmore f hf => ?_⟩
  obtain ⟨f', hf', hle⟩ := hl e he s hs hsfail
  exact hle.trans_lt ((List.pairwise_append.mp hmore).2.2 f' hf' f hf)

/-- A source that fails behind its first key. -/
theorem yields_new_failing :
    ∃ full : List Entry, ∃ l err, l <+: full ∧ Yields next
      (new [⟨[⟨[1], 1, none⟩], some (.io .manifest)⟩, ⟨[⟨[1], 2, some [7]⟩, ⟨[2], 3, none⟩], none⟩])
      (l.map .ok ++ [.error err]) := by
  obtain ⟨full, -, -, -, -, hfails⟩ := @yields_new
    [⟨[⟨[1], 1, none⟩], some (.io .manifest)⟩, ⟨[⟨[1], 2, some [7]⟩, ⟨[2], 3, none⟩], none⟩]
    (by decide)
  obtain ⟨l, err, hl, -, hyields, -⟩ := hfails ⟨_, List.mem_cons_self, by simp⟩
  exact ⟨full, l, err, hl, hyields⟩

end Merge

end Lsmkv
