import Lsmkv.Lib.Tally
import Lsmkv.Skiplist.Writers

/-!
# Writers never exhaust the arena

The arena has 1024 nodes more than the count at which `approx_bytes` starts to report the whole
budget (`pressure_at`).  From that count on a thread that has taken an index goes on to `rotate`
before it takes another, so the nodes past it are bounded by the threads that are `busy`: between
their index and the end of their rotation, or dead (`Writers.Account.bounded`).  A thread leaves
that set without a fresh table only if the count was still below, or if the table was empty, and
then its indices belong to threads that died (`Writers.Account.unlinked`).

`arena_never_exhausted` draws the conclusion for every run of at most 1024 threads.
-/

namespace Lsmkv

open Skiplist

namespace Skiplist

/-! ### What the steps of an insert add up to -/

variable {t t' : SkipMemtable} {pc pc' : Pc} {event : Event}

/-- What only grows, and what stays. -/
theorem Pc.Moves.grows (h : pc.Moves t event t' pc') :
    t'.capacity = t.capacity ∧ t'.budget = t.budget ∧ t'.pressureAt = t.pressureAt
      ∧ t.nextNode ≤ t'.nextNode ∧ t.bytes ≤ t'.bytes := by
  cases h with
  | exhaust | overflow | number => exact ⟨rfl, rfl, rfl, Nat.le_succ _, le_rfl⟩
  | count => exact ⟨rfl, rfl, rfl, le_rfl, Nat.le_add_right _ _⟩
  | _ => exact ⟨rfl, rfl, rfl, le_rfl, le_rfl⟩

/-- Whether a walk is for a node that is not on the bottom level yet. -/
def Goal.unlinked : Goal → Bool
  | link l => l.level = 0
  | get _ => false

/-- Whether a thread has taken an index that is not on the bottom level yet, or never will be. -/
def Pc.unlinked : Pc → Bool
  | numbered _ _ => true
  | reserving _ _ _ => true
  | towered _ _ => true
  | counted _ _ => true
  | published _ _ => true
  | raising _ _ _ => true
  | searching goal _ => goal.unlinked
  | walking goal _ _ _ => goal.unlinked
  | linking l _ => l.level = 0
  | stored l _ => l.level = 0
  | panicked _ => true
  | _ => false

theorem unlinked_settled (t : SkipMemtable) (goal : Goal) (found : Found)
    (h : goal.unlinked = true) : (settled t goal found).unlinked = true := by
  rcases settled_cases t goal found with ⟨l, rfl, hs⟩ | ⟨key, rfl, -⟩
  · rw [hs]
    exact h
  · cases h

theorem unlinked_walked (t : SkipMemtable) (goal : Goal) (level node : ℕ) (found : Found)
    (next : Option ℕ) (h : goal.unlinked = true) :
    (walked t goal level node found next).unlinked = true := by
  rcases walked_cases t goal level node found next with
    ⟨level', node', found', hw⟩ | ⟨found', hw⟩ | hw
  · rw [hw]
    exact h
  · rw [hw]
    exact unlinked_settled t goal found' h
  · rw [hw]
    rfl

theorem linksBottom_of_swap {l : Linking} {found : Found} {slot : ℕ}
    (hslot : t.slot (found.preds l.level) l.level = .ok slot)
    (hsame : t.links slot = found.succs l.level) (hlevel : l.level = 0) :
    (Pc.stored l found).linksBottom t = some l.index := by
  refine if_pos ⟨hlevel, ?_⟩
  rw [Linking.swaps, SkipMemtable.next, hslot]
  exact decide_eq_true hsame

/-- **Every index taken is linked or is still some thread's.** -/
theorem Pc.Moves.account (h : pc.Moves t event t' pc') :
    t'.nextNode + pc.unlinked.toNat
      ≤ t.nextNode + (pc.linksBottom t).toList.length + pc'.unlinked.toNat := by
  have hkeep : t'.nextNode = t.nextNode → (pc.unlinked = true → pc'.unlinked = true) →
      t'.nextNode + pc.unlinked.toNat
        ≤ t.nextNode + (pc.linksBottom t).toList.length + pc'.unlinked.toNat := by
    intro hnext himp
    have : pc.unlinked.toNat ≤ pc'.unlinked.toNat := Bool.toNat_le_toNat himp
    omega
  cases h with
  | exhaust | overflow | number => exact le_rfl
  | load | reload =>
    refine hkeep rfl fun _ => ?_
    unfold reserve
    split_ifs <;> rfl
  | loadTop | reloadTop =>
    refine hkeep rfl fun _ => ?_
    unfold raise
    split_ifs <;> rfl
  | search | swapFail | store => exact hkeep rfl id
  | searchNothing => exact hkeep rfl (unlinked_settled _ _ _)
  | walk => exact hkeep rfl (unlinked_walked _ _ _ _ _ _)
  | @swap l found slot hslot hsame =>
    by_cases hlevel : l.level = 0
    · rw [linksBottom_of_swap hslot hsame hlevel]
      have : (stored l found).unlinked = true := decide_eq_true hlevel
      rw [this]
      exact Nat.le_add_right _ _
    · refine hkeep rfl fun h => absurd (of_decide_eq_true h) hlevel
  | call | look | finishInsert | finishGet => exact hkeep rfl fun h => by cases h
  | _ => exact hkeep rfl fun _ => rfl

/-- A thread whose insert has its verdict has linked its node. -/
theorem Pc.Moves.linked (h : pc.Moves t event t' pc') (hverdict : pc'.verdict ≠ none) :
    pc.verdict ≠ none ∨ pc.linksBottom t ≠ none := by
  obtain ⟨⟨e, newest⟩, hv⟩ := Option.ne_none_iff_exists'.mp hverdict
  rcases verdict_of_moves h hv with hold | ⟨l, found, slot, rfl, hlevel, hslot, hsame, -⟩
  · exact Or.inl (by simp [hold])
  · refine Or.inr ?_
    rw [linksBottom_of_swap (by rw [hlevel]; exact hslot) (by rw [hlevel]; exact hsame) hlevel]
    exact Option.some_ne_none _

/-- Whether a thread in `insert` has taken its index. -/
def Pc.indexed : Pc → Bool
  | insert _ => false
  | _ => true

/-- A thread comes to the point before its index by a call only. -/
theorem Pc.Moves.indexed (h : pc.Moves t event t' pc') (hcalls : event.calls = []) :
    pc'.indexed = true := by
  have hsettled : ∀ goal found, (settled t goal found).indexed = true := by
    intro goal found
    rcases settled_cases t goal found with ⟨l, -, hs⟩ | ⟨key, -, ⟨lookup, hs⟩ | hs⟩
    all_goals rw [hs]; rfl
  cases h with
  | call => cases hcalls
  | load | reload =>
    unfold reserve
    split_ifs <;> rfl
  | loadTop | reloadTop =>
    unfold raise
    split_ifs <;> rfl
  | swap =>
    unfold Linking.linked
    split_ifs <;> rfl
  | searchNothing => exact hsettled _ _
  | @walk goal level node found next =>
    rcases walked_cases t goal level node found next with
      ⟨level', node', found', hw⟩ | ⟨found', hw⟩ | hw
    · rw [hw]; rfl
    · rw [hw]
      exact hsettled _ _
    · rw [hw]; rfl
  | _ => rfl

/-- The one step of an insert that takes an index. -/
theorem Pc.Moves.index (h : pc.Moves t event t' pc') :
    t'.nextNode + pc.indexed.toNat ≤ t.nextNode + 1 := by
  cases h with
  | exhaust | overflow | number => exact le_rfl
  | _ => exact Nat.add_le_add_left (Bool.toNat_le _) _

/-- Only the first step of an insert can find the arena exhausted. -/
theorem Pc.Moves.of_arena (h : pc.Moves t event t' (.panicked .arena)) :
    pc.indexed = false ∧ t.capacity ≤ t.nextNode := by
  have hsettled : ∀ goal found, settled t goal found ≠ .panicked .arena := by
    intro goal found
    rcases settled_cases t goal found with ⟨l, -, hs⟩ | ⟨key, -, ⟨lookup, hs⟩ | hs⟩
    all_goals rw [hs]; intro h; cases h
  generalize hpc : Pc.panicked .arena = pc' at h
  cases h with
  | exhaust harena => exact ⟨rfl, harena⟩
  | load | reload =>
    unfold reserve at hpc
    split_ifs at hpc
    cases hpc
  | loadTop | reloadTop =>
    unfold raise at hpc
    split_ifs at hpc
  | swap =>
    unfold Linking.linked at hpc
    split_ifs at hpc
  | searchNothing => exact absurd hpc.symm (hsettled _ _)
  | @walk goal level node found next =>
    rcases walked_cases t goal level node found next with
      ⟨level', node', found', hw⟩ | ⟨found', hw⟩ | hw
    · rw [hw] at hpc
      cases hpc
    · exact absurd (hpc.trans hw).symm (hsettled _ _)
    · rw [hw] at hpc
      cases hpc
  | walkPanic hnext =>
    obtain rfl := Pc.panicked.inj hpc
    rcases SkipMemtable.next_eq_error hnext with h | h <;> cases h
  | swapPanic hslot =>
    obtain rfl := Pc.panicked.inj hpc
    rcases SkipMemtable.slot_eq_error hslot with h | h <;> cases h
  | _ => cases hpc

end Skiplist

/-- Whether a thread at this stage may have taken an index of the table and not measured it since,
or has yet to come back from `rotate`. -/
def Stage.busy (pc : Pc) : Stage → Bool
  | .inserting => pc.indexed
  | .measuring => true
  | .measured _ => true
  | .rotating _ => true
  | .dead => true
  | _ => false

namespace Writers

variable {memtableBytes threads : ℕ} {w w' : Writers}

theorem stage_goto (w : Writers) (u v : ℕ) (stage : Stage) :
    (w.goto u stage).stage v = if v = u then stage else w.stage v := Function.update_apply _ _ _ _

/-! ### No two inserts bring the same mutation -/

/-- The table is one that threads with distinct mutations have filled. -/
structure Numbers (memtableBytes : ℕ) (w : Writers) : Prop where
  runs : Machine.Runs memtableBytes (memtableBytes / assumedEntryBytes + margin + 1) w.machine
  called : ∀ p ∈ w.machine.called, p.2 ≤ w.lastSeq
  logged : ∀ u e, w.stage u = .logged e →
    e.seq ≤ w.lastSeq ∧ ∀ p ∈ w.machine.called, p.2 ≠ e.seq
  apart : ∀ u v e f, w.stage u = .logged e → w.stage v = .logged f → u ≠ v → e.seq ≠ f.seq

/-- A thread moves on, and has no number it has not used yet. -/
theorem Numbers.goto (hn : w.Numbers memtableBytes) (u : ℕ) {stage : Stage}
    (hstage : ∀ e, stage ≠ .logged e) : (w.goto u stage).Numbers memtableBytes := by
  have hold : ∀ v e, (w.goto u stage).stage v = .logged e → w.stage v = .logged e := by
    intro v e hv
    rw [stage_goto] at hv
    split_ifs at hv
    · exact absurd hv (hstage e)
    · exact hv
  exact ⟨hn.runs, hn.called, fun v e hv => hn.logged v e (hold v e hv),
    fun v v' e f hv hv' => hn.apart v v' e f (hold v e hv) (hold v' f hv')⟩

/-- A step of an insert that is under way. -/
theorem Numbers.machine (hn : w.Numbers memtableBytes) {u : ℕ}
    {event : Skiplist.Event} {m : Machine}
    (hcalls : event.calls = []) (hm : w.machine.step (u, event) = some m) :
    Numbers memtableBytes { w with machine := m } := by
  obtain ⟨pc', -, -, -, hcalled⟩ := Machine.moves_of_step hm
  have hsame : m.called = w.machine.called := by rw [hcalled, hcalls, List.nil_append]
  refine ⟨hn.runs.step ?_ hm, ?_, ?_, hn.apart⟩
  · intro p hp
    rw [hcalls] at hp
    cases hp
  · rw [hsame]
    exact hn.called
  · rw [hsame]
    exact hn.logged

theorem Numbers.freeze (hn : w.Numbers memtableBytes) :
    (w.freeze memtableBytes).Numbers memtableBytes where
  runs := .start rfl
  called _ hp := nomatch hp
  logged u e hu := ⟨(hn.logged u e hu).1, fun _ hp => nomatch hp⟩
  apart := hn.apart

theorem Numbers.move (hn : w.Numbers memtableBytes) (hm : Moves memtableBytes threads w w') :
    w'.Numbers memtableBytes := by
  cases hm with
  | write | fail | loadBytes | large | small | keep => exact hn.goto _ (fun _ h => by cases h)
  | flushNothing => exact hn
  | @number u key value hu h hseq =>
    -- the log hands out a number that nobody has
    refine ⟨hn.runs, fun p hp => (hn.called p hp).trans (Nat.le_succ _), fun v e hv => ?_,
      fun v v' e f hv hv' hne => ?_⟩
    · rw [stage_goto] at hv
      split_ifs at hv with hvu
      · obtain rfl := Stage.logged.inj hv
        exact ⟨le_rfl, fun p hp => ((Nat.lt_succ_of_le (hn.called p hp)).ne)⟩
      · exact ⟨(hn.logged v e hv).1.trans (Nat.le_succ _), (hn.logged v e hv).2⟩
    · rw [stage_goto] at hv hv'
      split_ifs at hv hv' with hvu hvu' hvu'
      · exact absurd (hvu.trans hvu'.symm) hne
      · obtain rfl := Stage.logged.inj hv
        exact (Nat.lt_succ_of_le (hn.logged v' f hv').1).ne'
      · obtain rfl := Stage.logged.inj hv'
        exact (Nat.lt_succ_of_le (hn.logged v e hv).1).ne
      · exact hn.apart v v' e f hv hv' hne
  | @insert u e m hu h hm =>
    obtain ⟨pc', -, -, -, hcalled⟩ := Machine.moves_of_step hm
    change m.called = [(e.key, e.seq)] ++ w.machine.called at hcalled
    obtain ⟨hseq, hfresh⟩ := hn.logged u e h
    have hruns : Machine.Runs memtableBytes _ m := hn.runs.step (fun p hp hmem => by
      obtain rfl := List.mem_singleton.mp hp
      exact hfresh _ hmem rfl) hm
    have hold : ∀ v f, (Writers.goto { w with machine := m } u .inserting).stage v = .logged f →
        v ≠ u ∧ w.stage v = .logged f := by
      intro v f hv
      rw [stage_goto] at hv
      split_ifs at hv with hvu
      exact ⟨hvu, hv⟩
    refine ⟨hruns, fun p hp => ?_, fun v f hv => ?_, fun v v' f f' hv hv' hne =>
      hn.apart v v' f f' (hold v f hv).2 (hold v' f' hv').2 hne⟩
    · change p ∈ m.called at hp
      rw [hcalled] at hp
      rcases List.mem_cons.mp hp with rfl | hp
      · exact hseq
      · exact hn.called p hp
    · obtain ⟨hvu, hv⟩ := hold v f hv
      refine ⟨(hn.logged v f hv).1, fun p hp => ?_⟩
      change p ∈ m.called at hp
      rw [hcalled] at hp
      rcases List.mem_cons.mp hp with rfl | hp
      · exact (hn.apart v u f e hv h hvu).symm
      · exact (hn.logged v f hv).2 p hp
  | step hu h hcalls hm =>
    refine (hn.machine hcalls hm).goto _ fun e he => ?_
    unfold proceed at he
    split at he <;> cases he
  | finish hu h hpc hm => exact (hn.machine rfl hm).goto _ (fun _ h => by cases h)
  | rotate => exact hn.freeze.goto _ (fun _ h => by cases h)
  | flush => exact hn.freeze

/-! ### Counting the threads that have taken an index -/

/-- The same of a thread. -/
def busy (w : Writers) (u : ℕ) : Bool := (w.stage u).busy (w.machine.thread u)

/-- How many nodes there can be. -/
structure Account (memtableBytes threads : ℕ) (w : Writers) : Prop where
  capacity : w.machine.table.capacity = w.machine.table.pressureAt + margin
  budget : w.machine.table.budget = memtableBytes
  pressure : 1 ≤ w.machine.table.pressureAt
  idle : ∀ u, w.stage u ≠ .inserting → w.stage u ≠ .dead → w.machine.thread u = .idle
  unlinked : w.machine.table.nextNode ≤ 1 + w.machine.linked.length
    + Nat.count (fun u => (w.machine.thread u).unlinked = true) threads
  bounded : w.machine.table.nextNode
    ≤ w.machine.table.pressureAt + Nat.count (fun u => w.busy u = true) threads
  arena : ∀ u, w.machine.thread u ≠ .panicked .arena

/-- A thread in front of its index finds one below the capacity. -/
theorem Account.room (ha : w.Account memtableBytes threads) (hthreads : threads ≤ margin) {u : ℕ}
    (hu : u < threads) (hbusy : w.busy u = false) :
    w.machine.table.nextNode < w.machine.table.capacity := by
  have hcount := count_lt (p := w.busy) hu hbusy
  have := ha.bounded
  rw [ha.capacity]
  omega

theorem account_fresh (memtableBytes threads : ℕ) (stage : ℕ → Stage) (lastSeq frozen : ℕ) :
    Account memtableBytes threads ⟨Machine.initial (.new memtableBytes), stage,
      lastSeq, frozen⟩ where
  capacity := by
    change memtableBytes / assumedEntryBytes + margin + 1
      = max (memtableBytes / assumedEntryBytes + margin + 1 - margin) 1 + margin
    generalize memtableBytes / assumedEntryBytes = nodes
    omega
  budget := rfl
  pressure := le_max_right _ _
  idle _ _ _ := rfl
  unlinked := Nat.le_add_right _ _
  bounded := (le_max_right (_ - _) 1).trans (Nat.le_add_right _ _)
  arena _ h := by cases h

/-- A thread moves on outside the table. -/
theorem Account.goto (ha : w.Account memtableBytes threads) {u : ℕ} {stage : Stage}
    (hidle : w.machine.thread u = .idle)
    (hbusy : w.machine.table.nextNode
      ≤ w.machine.table.pressureAt + Nat.count (fun v => (w.goto u stage).busy v = true) threads) :
    (w.goto u stage).Account memtableBytes threads where
  capacity := ha.capacity
  budget := ha.budget
  pressure := ha.pressure
  idle v hv hv' := by
    rw [stage_goto] at hv hv'
    split_ifs at hv hv' with hvu
    · rw [hvu]
      exact hidle
    · exact ha.idle v hv hv'
  unlinked := ha.unlinked
  bounded := hbusy
  arena := ha.arena

theorem busy_goto_of_ne (w : Writers) {u v : ℕ} (stage : Stage) (h : v ≠ u) :
    (w.goto u stage).busy v = w.busy v := by
  rw [busy, busy, stage_goto, if_neg h]
  rfl

theorem Account.idle_of_stage (ha : w.Account memtableBytes threads) {u : ℕ} {old : Stage}
    (h : w.stage u = old) (hinserting : old ≠ .inserting) (hdead : old ≠ .dead) :
    w.machine.thread u = .idle :=
  ha.idle u (h ▸ hinserting) (h ▸ hdead)

/-- A thread that counted keeps counting. -/
theorem Account.goto_of_le (ha : w.Account memtableBytes threads) {u : ℕ} {old stage : Stage}
    (hu : u < threads) (h : w.stage u = old) (hinserting : old ≠ .inserting) (hdead : old ≠ .dead)
    (hbusy : old.busy .idle = true → stage.busy .idle = true) :
    (w.goto u stage).Account memtableBytes threads := by
  have hidle := ha.idle_of_stage h hinserting hdead
  have hself : (w.busy u).toNat ≤ ((w.goto u stage).busy u).toNat := by
    rw [busy, busy, stage_goto, if_pos rfl, h, hidle]
    refine Bool.toNat_le_toNat fun hold => ?_
    rw [show (w.goto u stage).machine.thread u = .idle from hidle]
    exact hbusy hold
  refine ha.goto hidle ?_
  have := count_update w.busy (w.goto u stage).busy hu
    fun v hv => w.busy_goto_of_ne stage hv
  have := ha.bounded
  omega

/-- A step in the table. -/
theorem Account.machine (ha : w.Account memtableBytes threads) {u : ℕ} {event : Skiplist.Event}
    {m : Machine} {stage : Stage} (hu : u < threads) (hm : w.machine.step (u, event) = some m)
    (hstage : stage = .inserting ∨ stage = .dead ∨ m.thread u = .idle)
    (hbusy : m.table.nextNode + (w.busy u).toNat ≤ w.machine.table.nextNode
      + ((Writers.goto { w with machine := m } u stage).busy u).toNat)
    (harena : m.thread u ≠ .panicked .arena) :
    (Writers.goto { w with machine := m } u stage).Account memtableBytes threads := by
  obtain ⟨pc', hmoves, hthread, hlinked, -⟩ := Machine.moves_of_step hm
  obtain ⟨hcapacity, hbudget, hpressure, -, -⟩ := hmoves.grows
  have hother : ∀ v, v ≠ u → m.thread v = w.machine.thread v := fun v hv => by
    rw [hthread]
    exact Function.update_of_ne hv _ _
  refine ⟨?_, hbudget.trans ha.budget, hpressure.ge.trans' ha.pressure, fun v hv hv' => ?_, ?_, ?_,
    fun v => ?_⟩
  · exact hcapacity.trans (ha.capacity.trans (congrArg (· + margin) hpressure.symm))
  · rw [stage_goto] at hv hv'
    split_ifs at hv hv' with hvu
    · rw [hvu]
      exact (hstage.resolve_left hv).resolve_left hv'
    · exact (hother v hvu).trans (ha.idle v hv hv')
  · -- one thread moved, so each count changes by what that thread contributes
    have hcount := count_update (fun v => (w.machine.thread v).unlinked)
      (fun v => (m.thread v).unlinked) hu fun v hv => congrArg Pc.unlinked (hother v hv)
    have hself : m.thread u = pc' := by
      rw [hthread]
      exact Function.update_self _ _ _
    have hsum := hmoves.account
    have hold := ha.unlinked
    change m.table.nextNode
      ≤ 1 + m.linked.length + Nat.count (fun v => (m.thread v).unlinked = true) threads
    rw [hlinked, List.length_append]
    rw [hself] at hcount
    omega
  · have hcount := count_update w.busy
      (Writers.goto { w with machine := m } u stage).busy hu fun v hv => by
        rw [busy, busy, stage_goto, if_neg hv]
        exact congrArg (fun pc => (w.stage v).busy pc) (hother v hv)
    have hold := ha.bounded
    change m.table.nextNode ≤ m.table.pressureAt + _
    rw [hpressure]
    omega
  · by_cases hvu : v = u
    · rw [hvu]
      exact harena
    · change m.thread v ≠ _
      rw [hother v hvu]
      exact ha.arena v

/-- The link of the head tells whether anything was linked. -/
theorem Numbers.isEmpty_iff (hn : w.Numbers memtableBytes) :
    w.machine.table.isEmpty = true ↔ w.machine.linked = [] := by
  obtain ⟨⟨g, hi⟩, -⟩ := Machine.inv_of_runs hn.runs
  rw [SkipMemtable.isEmpty, (hi.levels.chained 0 (by decide)).next_eq, Option.isNone_iff_eq_none,
    List.head?_eq_none_iff, List.eq_nil_iff_forall_not_mem, List.eq_nil_iff_forall_not_mem]
  exact forall_congr' fun i => not_congr (hi.linked i)

/-- An empty table that nobody is inserting into has lost its indices to threads that died. -/
theorem Account.nextNode_le_of_isEmpty (ha : w.Account memtableBytes threads)
    (hn : w.Numbers memtableBytes) (hunlocked : w.unlocked threads)
    (hempty : w.machine.table.isEmpty = true) {u : ℕ} (hu : u < threads)
    (hrotating : w.stage u ≠ .dead) :
    w.machine.table.nextNode ≤ w.machine.table.pressureAt
      + Nat.count (fun v => (w.goto u .outside).busy v = true) threads := by
  have hle : Nat.count (fun v => (w.machine.thread v).unlinked = true) threads
      ≤ Nat.count (fun v => (w.goto u .outside).busy v = true) threads := by
    refine Nat.count_mono_left fun v hv hunlinked => ?_
    have hbusy : w.stage v = .inserting ∨ w.stage v = .dead := by
      by_contra hnot
      rw [not_or] at hnot
      rw [ha.idle v hnot.1 hnot.2] at hunlinked
      cases hunlinked
    rcases hbusy with hstage | hstage
    · have := hunlocked v hv
      rw [hstage] at this
      cases this
    · have hne : v ≠ u := by
        rintro rfl
        exact hrotating hstage
      rw [busy_goto_of_ne w _ hne, busy, hstage]
      rfl
  have := ha.unlinked
  have := ha.pressure
  rw [hn.isEmpty_iff.mp hempty, List.length_nil] at *
  omega

theorem reported_of_lt {t : SkipMemtable} {bytes nodes memtableBytes : ℕ}
    (hbudget : t.budget = memtableBytes) (h : t.reported bytes nodes < memtableBytes) :
    nodes < t.pressureAt := by
  unfold SkipMemtable.reported at h
  split_ifs at h with hlt
  · exact hlt
  · rw [hbudget] at h
    exact absurd h (not_lt.mpr (le_max_right _ _))

theorem Account.move (ha : w.Account memtableBytes threads) (hn : w.Numbers memtableBytes)
    (hthreads : threads ≤ margin) (hm : Moves memtableBytes threads w w') :
    w'.Account memtableBytes threads := by
  cases hm with
  | write hu h => exact ha.goto_of_le hu h (by simp) (by simp) (fun h => by cases h)
  | number hu h _ =>
    have ha' : Account memtableBytes threads { w with lastSeq := w.lastSeq + 1 } :=
      ⟨ha.capacity, ha.budget, ha.pressure, ha.idle, ha.unlinked, ha.bounded, ha.arena⟩
    exact ha'.goto_of_le hu h (by simp) (by simp) (fun h => by cases h)
  | fail hu h =>
    rcases h with ⟨key, value, h⟩ | ⟨e, h⟩
    · exact ha.goto_of_le hu h (by simp) (by simp) (fun h => by cases h)
    · exact ha.goto_of_le hu h (by simp) (by simp) (fun h => by cases h)
  | loadBytes hu h => exact ha.goto_of_le hu h (by simp) (by simp) fun _ => rfl
  | large hu h _ => exact ha.goto_of_le hu h (by simp) (by simp) fun _ => rfl
  | small hu h hsmall =>
    -- a thread that leaves without a rotation has seen the table before the pressure set in
    have := reported_of_lt ha.budget hsmall
    exact ha.goto (ha.idle_of_stage h (by simp) (by simp)) (by omega)
  | keep hu h hunlocked hkeep =>
    refine ha.goto (ha.idle_of_stage h (by simp) (by simp)) ?_
    rcases hkeep with hempty | hsmall
    · exact ha.nextNode_le_of_isEmpty hn hunlocked hempty hu (by simp [h])
    · have := reported_of_lt ha.budget hsmall
      omega
  | rotate => exact account_fresh _ _ _ _ _
  | flushNothing => exact ha
  | flush => exact account_fresh _ _ _ _ _
  | @insert u e m hu h hm =>
    have hidle := ha.idle_of_stage h (by simp) (by simp)
    obtain ⟨pc', hmoves, hthread, -, -⟩ := Machine.moves_of_step hm
    have hself : m.thread u = pc' := by rw [hthread]; exact Function.update_self _ _ _
    rw [hidle] at hmoves
    generalize htable : m.table = table at hmoves
    cases hmoves with
    | call =>
      refine ha.machine hu hm (Or.inl rfl) ?_ (by rw [hself]; simp)
      rw [busy, h, htable]
      exact Nat.le_add_right _ _
  | @finish u e newest m hu h hpc hm =>
    obtain ⟨pc', hmoves, hthread, -, -⟩ := Machine.moves_of_step hm
    have hself : m.thread u = pc' := by rw [hthread]; exact Function.update_self _ _ _
    rw [hpc] at hmoves
    generalize htable : m.table = table at hmoves
    cases hmoves with
    | finishInsert =>
      refine ha.machine hu hm (Or.inr (Or.inr hself)) ?_ (by rw [hself]; simp)
      rw [htable, busy, busy, stage_goto, if_pos rfl]
      exact Nat.add_le_add_left (Bool.toNat_le _) _
  | @step u event m hu h hcalls hm =>
    obtain ⟨pc', hmoves, hthread, -, -⟩ := Machine.moves_of_step hm
    have hself : m.thread u = pc' := by rw [hthread]; exact Function.update_self _ _ _
    have hindexed := hmoves.indexed hcalls
    have hproceed : (proceed pc').busy pc' = true := by
      unfold proceed
      split
      · rfl
      · exact hindexed
    have hold : w.busy u = (w.machine.thread u).indexed := by rw [busy, h]; rfl
    refine ha.machine hu hm ?_ ?_ ?_
    · unfold proceed
      split
      · exact Or.inr (Or.inl rfl)
      · exact Or.inl rfl
    · have hnew :
          (Writers.goto { w with machine := m } u (proceed (m.thread u))).busy u = true := by
        rw [busy, stage_goto, if_pos rfl, hself]
        change (proceed pc').busy (m.thread u) = true
        rwa [hself]
      rw [hnew, hold]
      exact hmoves.index
    · rintro harena
      rw [hself] at harena
      rw [harena] at hmoves
      obtain ⟨hfirst, hfull⟩ := hmoves.of_arena
      have := ha.room hthreads hu (hold.trans hfirst)
      omega

/-! ### A rotation is not skipped -/

/-- What a thread on its way to `rotate` knows about the table it measured. -/
structure Measures (memtableBytes threads : ℕ) (w : Writers) : Prop where
  verdict : ∀ u, (w.machine.thread u).verdict ≠ none → w.machine.linked ≠ []
  measuring : ∀ u < threads, w.stage u = .measuring → w.machine.linked ≠ []
  measured : ∀ u < threads, ∀ bytes, w.stage u = .measured bytes →
    w.machine.linked ≠ [] ∧ bytes ≤ w.machine.table.bytes
  rotating : ∀ u < threads, ∀ frozen, w.stage u = .rotating frozen →
    frozen ≤ w.frozen ∧ (frozen = w.frozen →
      w.machine.linked ≠ [] ∧ memtableBytes ≤ w.machine.table.approxBytes)

/-- What a table reports grows with what it holds. -/
theorem reported_mono {t t' : SkipMemtable} {bytes bytes' nodes nodes' : ℕ}
    (hbudget : t'.budget = t.budget) (hpressure : t'.pressureAt = t.pressureAt)
    (hbytes : bytes ≤ bytes') (hnodes : nodes ≤ nodes') :
    t.reported bytes nodes ≤ t'.reported bytes' nodes' := by
  unfold SkipMemtable.reported
  rw [hbudget, hpressure]
  split_ifs
  all_goals omega

/-- A thread moves on to a stage at which it knows nothing. -/
theorem Measures.goto (hm : w.Measures memtableBytes threads) (u : ℕ) {stage : Stage}
    (hmeasuring : stage = .measuring → w.machine.linked ≠ [])
    (hmeasured : ∀ bytes, stage = .measured bytes →
      w.machine.linked ≠ [] ∧ bytes ≤ w.machine.table.bytes)
    (hrotating : ∀ frozen, stage = .rotating frozen → frozen ≤ w.frozen ∧ (frozen = w.frozen →
      w.machine.linked ≠ [] ∧ memtableBytes ≤ w.machine.table.approxBytes)) :
    (w.goto u stage).Measures memtableBytes threads := by
  refine ⟨hm.verdict, fun v hlt hv => ?_, fun v hlt bytes hv => ?_, fun v hlt frozen hv => ?_⟩
  all_goals
    rw [stage_goto] at hv
    split_ifs at hv
  · exact hmeasuring hv
  · exact hm.measuring v hlt hv
  · exact hmeasured bytes hv
  · exact hm.measured v hlt bytes hv
  · exact hrotating frozen hv
  · exact hm.rotating v hlt frozen hv

/-- A step in the table forgets nothing. -/
theorem Measures.machine (hw : w.Measures memtableBytes threads) {u : ℕ} {event : Skiplist.Event}
    {m : Machine} (hm : w.machine.step (u, event) = some m) :
    Measures memtableBytes threads { w with machine := m } := by
  obtain ⟨pc', hmoves, hthread, hlinked, -⟩ := Machine.moves_of_step hm
  obtain ⟨-, hbudget, hpressure, hnodes, hbytes⟩ := hmoves.grows
  have hkeep : w.machine.linked ≠ [] → m.linked ≠ [] := by
    rw [hlinked]
    exact fun h => List.append_ne_nil_of_left_ne_nil h _
  refine ⟨fun v hv => ?_, fun v hlt hv => hkeep (hw.measuring v hlt hv), fun v hlt bytes hv => ?_,
    fun v hlt frozen hv => ?_⟩
  · change (m.thread v).verdict ≠ none at hv
    rw [hthread, Function.update_apply] at hv
    split_ifs at hv with hvu
    · rcases hmoves.linked hv with hold | hlinks
      · exact hkeep (hw.verdict u hold)
      · obtain ⟨i, hi⟩ := Option.ne_none_iff_exists'.mp hlinks
        change m.linked ≠ []
        rw [hlinked, hi]
        exact List.append_ne_nil_of_right_ne_nil _ (List.cons_ne_nil _ _)
    · exact hkeep (hw.verdict v hv)
  · exact ⟨hkeep (hw.measured v hlt bytes hv).1, (hw.measured v hlt bytes hv).2.trans hbytes⟩
  · refine ⟨(hw.rotating v hlt frozen hv).1, fun heq => ?_⟩
    obtain ⟨hne, hlarge⟩ := (hw.rotating v hlt frozen hv).2 heq
    exact ⟨hkeep hne, hlarge.trans (reported_mono hbudget hpressure hbytes hnodes)⟩

/-- Nobody measures a table while it is replaced, and who measured the old one knows it is gone. -/
theorem Measures.freeze (hw : w.Measures memtableBytes threads) (hunlocked : w.unlocked threads) :
    (w.freeze memtableBytes).Measures memtableBytes threads where
  verdict u hu := absurd rfl hu
  measuring u hlt hu := by
    have := hunlocked u hlt
    rw [show w.stage u = .measuring from hu] at this
    cases this
  measured u hlt bytes hu := by
    have := hunlocked u hlt
    rw [show w.stage u = .measured bytes from hu] at this
    cases this
  rotating u hlt frozen hu := by
    have := (hw.rotating u hlt frozen hu).1
    refine ⟨this.trans (Nat.le_succ _), fun heq => ?_⟩
    change frozen = w.frozen + 1 at heq
    omega

theorem proceed_cases (pc : Pc) : proceed pc = .dead ∨ proceed pc = .inserting := by
  unfold proceed
  split
  · exact Or.inl rfl
  · exact Or.inr rfl

theorem Measures.move (hw : w.Measures memtableBytes threads)
    (hm : Moves memtableBytes threads w w') : w'.Measures memtableBytes threads := by
  cases hm with
  | write | fail | small | keep => exact hw.goto _ (by simp) (by simp) (by simp)
  | number =>
    have hw' : Measures memtableBytes threads { w with lastSeq := w.lastSeq + 1 } :=
      ⟨hw.verdict, hw.measuring, hw.measured, hw.rotating⟩
    exact hw'.goto _ (by simp) (by simp) (by simp)
  | insert hu h hm => exact (hw.machine hm).goto _ (by simp) (by simp) (by simp)
  | @step u event m hu h hcalls hm =>
    rcases proceed_cases (m.thread u) with hstage | hstage
    all_goals
      rw [hstage]
      exact (hw.machine hm).goto _ (by simp) (by simp) (by simp)
  | @finish u e newest m hu h hpc hm =>
    refine (hw.machine hm).goto _ (fun _ => ?_) (by simp) (by simp)
    -- the insert has its verdict, so its node is linked
    have hlinked := hw.verdict u (by rw [hpc]; exact Option.some_ne_none _)
    obtain ⟨pc', -, -, hlinked', -⟩ := Machine.moves_of_step hm
    change m.linked ≠ []
    rw [hlinked']
    exact List.append_ne_nil_of_left_ne_nil hlinked _
  | @loadBytes u hu h =>
    refine hw.goto _ (by simp) (fun bytes hbytes => ?_) (by simp)
    obtain rfl := Stage.measured.inj hbytes
    exact ⟨hw.measuring u hu h, le_rfl⟩
  | @large u bytes hu h hlarge =>
    refine hw.goto _ (by simp) (by simp) fun frozen hfrozen => ?_
    obtain rfl := Stage.rotating.inj hfrozen
    obtain ⟨hlinked, hbytes⟩ := hw.measured u hu bytes h
    exact ⟨le_rfl, fun _ => ⟨hlinked, hlarge.trans (reported_mono rfl rfl hbytes le_rfl)⟩⟩
  | rotate hu h hunlocked => exact (hw.freeze hunlocked).goto _ (by simp) (by simp) (by simp)
  | flushNothing => exact hw
  | flush hunlocked => exact hw.freeze hunlocked

/-! ### Whole runs -/

theorem numbers_initial (memtableBytes lastSeq : ℕ) :
    (initial memtableBytes lastSeq).Numbers memtableBytes where
  runs := .start rfl
  called _ hp := nomatch hp
  logged _ _ h := by cases h
  apart _ _ _ _ h := by cases h

theorem measures_initial (memtableBytes threads lastSeq : ℕ) :
    (initial memtableBytes lastSeq).Measures memtableBytes threads where
  verdict _ h := absurd rfl h
  measuring _ _ h := by cases h
  measured _ _ _ h := by cases h
  rotating _ _ _ h := by cases h

/-- What holds in every state of a run of at most 1024 threads. -/
theorem invariants_of_runs (hthreads : threads ≤ margin) (hw : Runs memtableBytes threads w) :
    w.Numbers memtableBytes ∧ w.Account memtableBytes threads
      ∧ w.Measures memtableBytes threads := by
  induction hw with
  | start h =>
    obtain ⟨lastSeq, rfl⟩ := h
    exact ⟨numbers_initial _ _, account_fresh _ _ _ _ _, measures_initial _ _ _⟩
  | step _ _ h ih =>
    obtain ⟨hn, ha, hm⟩ := ih
    have hmoves := moves_of_step h
    exact ⟨hn.move hmoves, ha.move hn hthreads hmoves, hm.move hmoves⟩

/-- A step that is not a flush is one of a writing thread. -/
theorem stepThread_of_step {u : ℕ} {act : Act} (hact : act ≠ .flush)
    (h : step memtableBytes threads w (u, act) = some w') :
    u < threads ∧ w.stepThread memtableBytes threads u act = some w' := by
  unfold step at h
  rw [if_neg hact] at h
  split_ifs at h with hu
  exact ⟨hu, h⟩

end Writers

/-- **Writers never exhaust the arena of the skiplist.**  In every state that at most 1024 threads
can bring an engine to by `set` and `delete`, with flushes in between:

* no `insert` has been given an index at or past the capacity, and the next index to be given is
  below it whenever a thread is about to take one;
* once the node count has reached `pressure_at`, whoever measures the table goes on to `rotate`, so
  that nobody inserts twice;
* a thread that comes back from `rotate` finds the table that it measured replaced, by itself or by
  another: the second check does not skip the freeze. -/
theorem arena_never_exhausted {memtableBytes threads : ℕ} {w : Writers}
    (hthreads : threads ≤ margin) (hw : Writers.Runs memtableBytes threads w) :
    (∀ u, w.machine.thread u ≠ .panicked .arena)
    ∧ (∀ u < threads, ∀ e, w.stage u = .inserting → w.machine.thread u = .insert e →
      w.machine.table.nextNode < w.machine.table.capacity)
    ∧ (∀ u bytes w', w.stage u = .measured bytes →
      w.machine.table.pressureAt ≤ w.machine.table.nextNode →
      Writers.step memtableBytes threads w (u, .loadNodes) = some w' →
      w'.stage u = .rotating w.frozen)
    ∧ ∀ u frozen w', w.stage u = .rotating frozen →
      Writers.step memtableBytes threads w (u, .rotate) = some w' → frozen < w'.frozen := by
  obtain ⟨hn, ha, hm⟩ := Writers.invariants_of_runs hthreads hw
  refine ⟨ha.arena, fun u hu e hstage hpc => ha.room hthreads hu ?_,
    fun u bytes w' hu hpressure h => ?_, fun u frozen w' hu h => ?_⟩
  · rw [Writers.busy, hstage, hpc]
    rfl
  · obtain ⟨-, h⟩ := Writers.stepThread_of_step (by simp) h
    have hlarge : memtableBytes ≤ w.machine.table.reported bytes w.machine.table.nextNode := by
      rw [SkipMemtable.reported, if_neg (not_lt.mpr hpressure), ha.budget]
      exact le_max_right _ _
    unfold Writers.stepThread at h
    rw [hu] at h
    dsimp only at h
    rw [if_pos hlarge] at h
    obtain rfl := Option.some.inj h
    rw [Writers.stage_goto, if_pos rfl]
  · obtain ⟨hlt, h⟩ := Writers.stepThread_of_step (by simp) h
    unfold Writers.stepThread at h
    rw [hu] at h
    obtain ⟨w'', hrotate, rfl⟩ := Option.map_eq_some_iff.mp h
    obtain ⟨hle, hsame⟩ := hm.rotating u hlt frozen hu
    obtain ⟨-, ⟨hkeep, rfl⟩ | ⟨-, rfl⟩⟩ := Writers.rotate_cases hrotate
    · refine lt_of_le_of_ne hle fun heq => ?_
      obtain ⟨hlinked, hlarge⟩ := hsame heq
      rcases hkeep with hempty | hsmall
      · exact hlinked (hn.isEmpty_iff.mp hempty)
      · exact absurd hsmall (not_lt.mpr hlarge)
    · exact Nat.lt_succ_of_le hle

/-- A store that freezes its table at every write, up to where the writer calls `rotate`. -/
def rotatingWriter : List (ℕ × Act) :=
  List.flatten [[(0, .write [1] (some [7])), (0, .number), (0, .insert)],
    List.replicate 10 (0, .step), [(0, .finish), (0, .loadBytes), (0, .loadNodes)]]

theorem arena_never_exhausted_rotatingWriter : ∃ w w' : Writers, w.stage 0 = .rotating 0
    ∧ Writers.step 0 2 w (0, .rotate) = some w' ∧ 0 < w'.frozen := by
  let test (w : Writers) : Bool :=
    w.stage 0 = .rotating 0 && (Writers.step 0 2 w (0, .rotate)).isSome
  obtain ⟨w, hw, htest⟩ : ∃ w, Writers.Runs 0 2 w ∧ test w = true :=
    Reachable.exists_of_run (fun _ _ _ => trivial) ⟨0, rfl⟩
      (by decide +kernel : (run (Writers.step 0 2) (fun _ _ => true) (.initial 0 0)
        rotatingWriter).map test = some true)
  rw [Bool.and_eq_true, decide_eq_true_iff, Option.isSome_iff_exists] at htest
  obtain ⟨hstage, w', hstep⟩ := htest
  obtain ⟨-, -, -, hfreeze⟩ := arena_never_exhausted (by decide) hw
  exact ⟨w, w', hstage, hstep, hfreeze 0 0 w' hstage hstep⟩

end Lsmkv
