import Lsmkv.Skiplist.Invariant

/-!
# What `insert` and `get` answer while others insert

The moment that counts for a `get` is its last load, and for an `insert` the compare-and-swap of the
bottom level.  At either of them the thread stands at a node of the bottom level whose link leads to
the first node not before its target, so the level splits there: everything in front sorts before
the target, and everything behind does not (`Levels.bottom_cases`).  What a lookup finds is then the
newest version of its key (`Levels.newest_bottom`), and an insert that finds another key, or the
head, in front of its node has no newer version of its key anywhere (`isNewest_iff`).

`skiplist_linearizable` says so for every state that any number of threads can bring the table to.
-/

namespace Lsmkv.Skiplist

section

variable {t t' : SkipMemtable} {g : Ghost} {called : List (Bytes × ℕ)} {u : ℕ}
  {plan : ℕ → Option Node} {chain : ℕ → List ℕ}

/-! ### What the bottom level holds around a position -/

theorem Levels.bottom_eq (hv : Levels t plan chain) :
    t.bottom = (chain 0).filterMap fun i => (t.nodes i).map Node.entry := by
  rw [SkipMemtable.bottom, hv.level_eq (by decide)]

theorem Levels.mem_bottom_iff (hv : Levels t plan chain) {v : Entry} :
    v ∈ t.bottom ↔ ∃ i ∈ chain 0, ∃ n, t.nodes i = some n ∧ n.entry = v := by
  rw [hv.bottom_eq, List.mem_filterMap]
  simp only [Option.map_eq_some_iff]

/-- A version on the bottom level is before a position, or is not before what follows it. -/
theorem Levels.bottom_cases (hv : Levels t plan chain) {node : ℕ} {next : Option ℕ} {key : Bytes}
    {seq : ℕ} (hb : Bracket t chain key seq 0 node next) (hnext : t.succ 0 node = next) {v : Entry}
    (h : v ∈ t.bottom) :
    Precedes v key seq ∧ (node ≠ head ∧ ∃ n, t.nodes node = some n
        ∧ (v = n.entry ∨ Precedes v n.entry.key n.entry.seq))
      ∨ ∃ i ∈ next, ∃ n, t.nodes i = some n
        ∧ (v = n.entry ∨ Precedes n.entry v.key v.seq) := by
  obtain ⟨i, hi, n, hn, rfl⟩ := hv.mem_bottom_iff.mp h
  obtain ⟨front, rest, hsplit, hrest, -⟩ := hv.split (by decide) hb.pred_mem
  have hsorted := hv.sorted 0
  rw [hsplit] at hsorted
  obtain ⟨-, hsorted', hcross⟩ := List.pairwise_append.mp hsorted
  have hmem : i ∈ front ++ node :: rest := by
    rw [← hsplit]
    exact List.mem_cons_of_mem _ hi
  rcases List.mem_append.mp hmem with hfront | hmem
  · -- in front of the position
    obtain ⟨hne, m, hm, hlt⟩ := hcross i hfront node List.mem_cons_self
    obtain ⟨n', hn', hnm⟩ := hlt.resolve_left (hv.ne_head hi)
    obtain rfl := Option.some.inj (hn.symm.trans hn')
    obtain ⟨m', hm', hlt'⟩ := hb.pred_lt.resolve_left hne
    obtain rfl := Option.some.inj (hm.symm.trans hm')
    exact Or.inl ⟨hnm.trans hlt', hne, m, hm, Or.inr hnm⟩
  · rcases List.mem_cons.mp hmem with rfl | hmem
    · have hne := hv.ne_head hi
      obtain ⟨m, hm, hlt⟩ := hb.pred_lt.resolve_left hne
      obtain rfl := Option.some.inj (hn.symm.trans hm)
      exact Or.inl ⟨hlt, hne, n, hn, Or.inl rfl⟩
    · -- behind it
      rw [hnext] at hrest
      cases rest with
      | nil => cases hmem
      | cons first rest =>
        refine Or.inr ⟨first, hrest ▸ rfl, ?_⟩
        rcases List.mem_cons.mp hmem with rfl | hmem
        · exact ⟨n, hn, Or.inl rfl⟩
        · obtain ⟨-, m, hm, hlt⟩ :=
            (List.pairwise_cons.mp (List.pairwise_cons.mp hsorted').2).1 i hmem
          obtain rfl := Option.some.inj (hn.symm.trans hm)
          have hfirst : first ∈ chain 0 := hb.succ_mem first (hrest ▸ rfl)
          obtain ⟨o, ho, hlt'⟩ := hlt.resolve_left (hv.ne_head hfirst)
          exact ⟨o, ho, Or.inr hlt'⟩

/-- Every number is below the one a lookup searches for. -/
theorem Levels.seq_bottom (hv : Levels t plan chain) {v : Entry} (h : v ∈ t.bottom) :
    v.seq < u64Limit := by
  obtain ⟨i, -, n, hn, rfl⟩ := hv.mem_bottom_iff.mp h
  exact hv.seq i n (hv.published i n hn)

/-- **What a lookup finds behind its last position is the newest version of its key.** -/
theorem Levels.newest_bottom (hv : Levels t plan chain) {node : ℕ} {next : Option ℕ} {key : Bytes}
    (hb : Bracket t chain key (u64Limit - 1) 0 node next) (hnext : t.succ 0 node = next) :
    newest t.bottom key
      = (next.bind t.nodes).bind fun n => if n.entry.key ≠ key then none else some n.entry := by
  -- no version of the key is before the position
  have hbehind : ∀ v ∈ t.bottom, v.key = key → ∃ i ∈ next, ∃ n, t.nodes i = some n
      ∧ (v = n.entry ∨ Precedes n.entry v.key v.seq) := by
    intro v hv' hkey
    refine (hv.bottom_cases hb hnext hv').resolve_left ?_
    rintro ⟨hlt | ⟨-, hlt⟩, -⟩
    · exact absurd hkey hlt.ne
    · have := hv.seq_bottom hv'
      omega
  cases hnew : newest t.bottom key with
  | none =>
    rw [newest_eq_none_iff] at hnew
    cases next with
    | none => rfl
    | some i =>
      obtain ⟨n, hn, -⟩ := hb.succ_not i rfl
      have hmem : n.entry ∈ t.bottom := hv.mem_bottom_iff.mpr ⟨i, hb.succ_mem i rfl, n, hn, rfl⟩
      simp [hn, hnew _ hmem]
  | some v =>
    obtain ⟨hmem, hkey, hmax⟩ := newest_spec hnew
    obtain ⟨i, rfl, n, hn, hv'⟩ := hbehind v hmem hkey
    obtain ⟨n', hn', hnot⟩ := hb.succ_not i rfl
    obtain rfl := Option.some.inj (hn.symm.trans hn')
    have hmem' : n.entry ∈ t.bottom := hv.mem_bottom_iff.mpr ⟨i, hb.succ_mem i rfl, n, hn, rfl⟩
    -- a version of the key behind the first would have to be older
    have heq : v = n.entry := by
      refine hv'.resolve_right ?_
      rintro (hlt | ⟨hkey', hlt⟩)
      · rw [hkey] at hlt
        exact hnot (Or.inl hlt)
      · have := hmax n.entry hmem' (hkey'.trans hkey)
        omega
    subst heq
    simp [hn, hkey]

/-- **The verdict of an insert.**  When its node is linked behind `pred`, no version of its key with
a higher number is on the bottom level exactly if `pred` is not a version of the key. -/
theorem isNewest_iff (hv : Levels t plan chain) {l : Linking} {pred : ℕ} {succ : Option ℕ}
    (hb : Bracket t chain l.node.entry.key l.node.entry.seq 0 pred succ)
    (hsucc : t.succ 0 pred = succ) :
    isNewest t l pred = true
      ↔ ∀ v ∈ t.bottom, v.key = l.node.entry.key → ¬l.node.entry.seq < v.seq := by
  obtain ⟨m, hm, -⟩ := hv.node (by decide : 0 < maxHeight) hb.pred_mem
  simp only [isNewest, hm, Bool.or_eq_true, decide_eq_true_iff]
  constructor
  · intro hpred v hv' hkey hlt
    rcases hv.bottom_cases hb hsucc hv' with ⟨-, hne, n, hn, hvn⟩ | ⟨i, hi, n, hn, hvn⟩
    · -- between that version and the new one there is only the same key
      obtain rfl := Option.some.inj (hm.symm.trans hn)
      have hother := hpred.resolve_left hne
      obtain ⟨n', hn', hprec⟩ := hb.pred_lt.resolve_left hne
      obtain rfl := Option.some.inj (hm.symm.trans hn')
      rcases hvn with rfl | hvn
      · exact hother hkey
      · rcases hprec with hprec | ⟨hsame, -⟩
        · rcases hvn with hvn | ⟨hvn, -⟩
          · exact absurd (hkey ▸ hvn.trans hprec) (lt_irrefl _)
          · exact absurd (hkey ▸ hvn ▸ hprec) (lt_irrefl _)
        · exact hother hsame
    · obtain ⟨n', hn', hnot⟩ := hb.succ_not i hi
      obtain rfl := Option.some.inj (hn.symm.trans hn')
      have hprec : Precedes v l.node.entry.key l.node.entry.seq := Or.inr ⟨hkey, hlt⟩
      rcases hvn with rfl | hvn
      · exact hnot hprec
      · exact hnot (hvn.trans hprec)
  · intro hall
    by_contra hnot
    rw [not_or, not_not] at hnot
    obtain ⟨hne, hkey⟩ := hnot
    obtain ⟨n, hn, hprec⟩ := hb.pred_lt.resolve_left hne
    obtain rfl := Option.some.inj (hm.symm.trans hn)
    have hmem : m.entry ∈ t.bottom :=
      hv.mem_bottom_iff.mpr ⟨pred, (List.mem_cons.mp hb.pred_mem).resolve_left hne, m, hm, rfl⟩
    rcases hprec with hprec | ⟨-, hprec⟩
    · exact absurd hkey hprec.ne
    · exact hall m.entry hmem hkey hprec

/-! ### The machine -/

namespace Machine

variable {m m' : Machine}

/-- The table, the threads and the nodes that were linked, as far as the levels go. -/
structure Inv (m : Machine) (g : Ghost) : Prop where
  levels : Levels m.table g.plan g.chain
  calls : ∀ i n, g.plan i = some n → i ≠ head → pair n.entry ∈ m.called
  threads : ∀ u, (m.thread u).Ok m.table g m.called u
  linked : ∀ i, i ∈ g.chain 0 ↔ i ∈ m.linked

/-- A step of the machine is a step of a thread. -/
theorem moves_of_step {u : ℕ} {event : Event} (h : m.step (u, event) = some m') :
    ∃ pc', (m.thread u).Moves m.table event m'.table pc'
      ∧ m'.thread = Function.update m.thread u pc'
      ∧ m'.linked = m.linked ++ ((m.thread u).linksBottom m.table).toList
      ∧ m'.called = event.calls ++ m.called := by
  unfold step at h
  rw [Option.map_eq_some_iff] at h
  obtain ⟨⟨t', pc'⟩, hstep, rfl⟩ := h
  exact ⟨pc', Pc.moves_of_step hstep, rfl, rfl, rfl⟩

theorem inv_initial (budget capacity : ℕ) :
    ∃ g, (initial (.withCapacity budget capacity)).Inv g := by
  refine ⟨⟨fun i => if i = head then some SkipMemtable.headNode else none, fun _ => [], fun _ => 0,
    fun _ => 0⟩, levels_withCapacity budget capacity, fun i n hi hne => ?_, fun _ => trivial,
    fun i => Iff.rfl⟩
  cases (if_neg hne).symm.trans hi

theorem Inv.step (hi : m.Inv g) {label : ℕ × Event} (hfresh : m.Fresh label)
    (h : m.step label = some m') : ∃ g', m'.Inv g' := by
  unfold Machine.step at h
  rw [Option.map_eq_some_iff] at h
  obtain ⟨⟨t', pc'⟩, hstep, rfl⟩ := h
  obtain ⟨g', hframe, hlevels, hcalls, hok, hlinked⟩ := stepOk_of_moves hi.levels hi.calls
    (hi.threads label.1) hfresh (Pc.moves_of_step hstep)
  refine ⟨g', hlevels, hcalls, fun v => ?_, fun i => ?_⟩
  · dsimp only
    by_cases hv : v = label.1
    · rw [hv, Function.update_self]
      exact hok
    · rw [Function.update_of_ne hv]
      exact (hi.threads v).frame hframe hi.levels hv
  · rw [hlinked, hi.linked, List.mem_append, Option.mem_toList]

end Machine

/-! ### What the calls return -/

/-- The mutation of an insert whose node is on the bottom level, and what `insert` will return. -/
def Goal.verdict : Goal → Option (Entry × Bool)
  | link l => if l.level = 0 then none else some (l.node.entry, l.newest)
  | get _ => none

/-- The same of a thread. -/
def Pc.verdict : Pc → Option (Entry × Bool)
  | searching goal _ => goal.verdict
  | walking goal _ _ _ => goal.verdict
  | linking l _ => (Goal.link l).verdict
  | stored l _ => (Goal.link l).verdict
  | inserted e newest => some (e, newest)
  | _ => none

theorem verdict_settled (t : SkipMemtable) (goal : Goal) (found : Found) :
    (settled t goal found).verdict = goal.verdict := by
  rcases settled_cases t goal found with ⟨l, rfl, h⟩ | ⟨key, rfl, ⟨lookup, h⟩ | h⟩
  all_goals rw [h]; rfl

theorem verdict_walked (t : SkipMemtable) (goal : Goal) (level node : ℕ) (found : Found)
    (next : Option ℕ) {v : Entry × Bool}
    (h : (walked t goal level node found next).verdict = some v) : goal.verdict = some v := by
  rcases walked_cases t goal level node found next with
    ⟨level', node', found', hw⟩ | ⟨found', hw⟩ | hw
  · rwa [hw] at h
  · rwa [hw, verdict_settled] at h
  · rw [hw] at h
    cases h

/-- The verdict of an insert is reached when its node is linked to the bottom level, and stays. -/
theorem verdict_of_moves {pc pc' : Pc} {event : Event} (hm : pc.Moves t event t' pc') {e : Entry}
    {newest : Bool} (h : pc'.verdict = some (e, newest)) :
    pc.verdict = some (e, newest) ∨ ∃ l found slot, pc = .stored l found ∧ l.level = 0
      ∧ t.slot (found.preds 0) 0 = .ok slot ∧ t.links slot = found.succs 0 ∧ e = l.node.entry
      ∧ newest = isNewest t l (found.preds 0) := by
  cases hm with
  | load | reload =>
    unfold reserve at h
    split_ifs at h <;> cases h
  | loadTop | reloadTop =>
    unfold raise at h
    split_ifs at h <;> cases h
  | search | store => exact Or.inl h
  | swapFail => exact Or.inl h
  | searchNothing =>
    rw [verdict_settled] at h
    exact Or.inl h
  | walk => exact Or.inl (verdict_walked _ _ _ _ _ _ h)
  | @swap l found slot hslot hsame =>
    -- the flag of the next level, or of the return, is the one just decided
    have hlinked : ∀ flag, (l.linked flag found).verdict = some (l.node.entry, flag) := by
      intro flag
      unfold Linking.linked
      split_ifs
      · rw [Pc.verdict, Goal.verdict, if_neg (Nat.succ_ne_zero _)]
      · rfl
    rw [hlinked] at h
    obtain ⟨rfl, rfl⟩ := Prod.mk.inj (Option.some.inj h)
    by_cases hlevel : l.level = 0
    · rw [hlevel] at hslot hsame ⊢
      exact Or.inr ⟨l, found, slot, rfl, hlevel, hslot, hsame, rfl, if_pos rfl⟩
    · refine Or.inl ?_
      rw [Pc.verdict, Goal.verdict, if_neg hlevel, if_neg hlevel]
  | _ => cases h

/-- What the end of the walk of a lookup answers. -/
theorem answered_descended {goal : Goal} {level node : ℕ} {found : Found} {key : Bytes}
    {lookup : Lookup} (h : descended t goal level node found = .answered key lookup)
    (hentry : ∀ i ∈ found.succs 0, ∃ n, t.nodes i = some n) :
    goal = .get key ∧ level = 0 ∧ lookup = Lookup.ofEntry (((found.succs 0).bind t.nodes).bind
      fun n => if n.entry.key ≠ key then none else some n.entry) := by
  cases level with
  | succ level => cases h
  | zero =>
    unfold descended settled at h
    cases goal with
    | link l => cases h
    | get key' =>
      dsimp only at h
      cases hsucc : found.succs 0 with
      | none =>
        rw [hsucc] at h
        cases h
        exact ⟨rfl, rfl, rfl⟩
      | some i =>
        obtain ⟨n, hn⟩ := hentry i hsucc
        rw [hsucc] at h
        dsimp only at h
        rw [SkipMemtable.entry_of_nodes hn] at h
        dsimp only at h
        rw [Option.bind_some, hn, Option.bind_some]
        split_ifs at h with hkey
        · cases h
          rw [if_pos hkey]
          exact ⟨rfl, rfl, rfl⟩
        · cases h
          rw [if_neg hkey]
          exact ⟨rfl, rfl, rfl⟩

/-- What the last turn of the walk of a lookup answers. -/
theorem answered_walked (hv : Levels t g.plan g.chain) {goal : Goal} {level node : ℕ}
    {found : Found}
    {next : Option ℕ} (hlevel : level < maxHeight) (hnode : node ∈ head :: g.chain level)
    (hlt : node = head ∨ ∃ n, t.nodes node = some n ∧ Precedes n.entry goal.key goal.seq)
    (hsucc : t.succ level node = next) {key : Bytes} {lookup : Lookup}
    (h : walked t goal level node found next = .answered key lookup) :
    goal = .get key ∧ lookup = Lookup.ofEntry (newest t.bottom key) := by
  obtain ⟨front, rest, -, hrest, hmem⟩ := hv.split hlevel hnode
  have hset : (found.set level node next).succs level = next := Function.update_self _ _ _
  -- both ways to end the walk leave the link that was read as the successor
  have hend : descended t goal level node (found.set level node next) = .answered key lookup →
      (∀ i ∈ next, ∃ n, t.nodes i = some n ∧ ¬Precedes n.entry goal.key goal.seq) →
      goal = .get key ∧ lookup = Lookup.ofEntry (newest t.bottom key) := by
    intro h hnot
    obtain ⟨rfl, rfl, hlookup⟩ : goal = .get key ∧ level = 0 ∧ _ := by
      cases level with
      | succ level => cases h
      | zero =>
        refine answered_descended h ?_
        rw [hset]
        exact fun i hi => (hnot i hi).imp fun _ => And.left
    rw [hset] at hlookup
    have hb : Bracket t g.chain key (u64Limit - 1) 0 node next :=
      ⟨hnode, hlt, fun i hi => hmem i (List.mem_of_head? (hrest.symm.trans (hsucc.trans hi))), hnot⟩
    exact ⟨rfl, by rw [hlookup, hv.newest_bottom hb hsucc]⟩
  cases next with
  | none => exact hend h (by simp)
  | some i =>
    obtain ⟨n, hn, -⟩ := hv.tall level i (hmem i (List.mem_of_head? (hrest.symm.trans hsucc)))
    unfold walked at h
    dsimp only at h
    rw [SkipMemtable.entry_of_nodes hn] at h
    dsimp only at h
    split_ifs at h with horder
    refine hend h fun j hj => ?_
    obtain rfl := Option.some.inj hj
    exact ⟨n, hn, fun hprec => horder (order_eq_lt_iff.mpr hprec)⟩

/-- **A lookup answers in its last load**, with the newest version on the bottom level. -/
theorem answered_of_moves (hv : Levels t g.plan g.chain) {pc pc' : Pc} {event : Event}
    (hok : pc.Ok t g called u) (hm : pc.Moves t event t' pc') {key : Bytes} {lookup : Lookup}
    (h : pc' = .answered key lookup) :
    pc.isGetting = true ∧ lookup = Lookup.ofEntry (newest t.bottom key) := by
  cases hm with
  | load | reload =>
    unfold reserve at h
    split_ifs at h
  | loadTop | reloadTop =>
    unfold raise at h
    split_ifs at h
  | swap =>
    unfold Linking.linked at h
    split_ifs at h
  | searchNothing htop => exact absurd hv.top.1 (by omega)
  | @walk goal level node found next hnext =>
    obtain ⟨-, hlevel, hnode, hlt, -⟩ := hok
    obtain ⟨n, hn, hheight⟩ := hv.node hlevel hnode
    have hsucc : t.succ level node = next := by
      rw [SkipMemtable.next_of_nodes hn hheight] at hnext
      rw [SkipMemtable.succ_of_nodes hn hheight]
      exact Except.ok.inj hnext
    obtain ⟨rfl, hlookup⟩ := answered_walked hv hlevel hnode hlt hsucc h
    exact ⟨rfl, hlookup⟩
  | _ => cases h

namespace Machine

variable {m m' : Machine}

/-- What the calls that returned, or will return, have to do with the bottom level. -/
structure Returns (m : Machine) : Prop where
  getting : ∀ u, (m.thread u).isGetting = true → m.table.bottom ∈ m.since u
  answered : ∀ u key lookup, m.thread u = .answered key lookup →
    ∃ bottom ∈ m.since u, lookup = Lookup.ofEntry (newest bottom key)
  inserted : ∀ u e newest, (m.thread u).verdict = some (e, newest) →
    (newest = true ↔ ∀ v ∈ m.linkedTo u, v.key = e.key → ¬e.seq < v.seq)

theorem linksBottom_of_verdict {pc : Pc} {v : Entry × Bool} (h : pc.verdict = some v) :
    pc.linksBottom t = none := by
  cases pc with
  | stored l found =>
    rw [Pc.verdict, Goal.verdict] at h
    split_ifs at h with hlevel
    rw [Pc.linksBottom, if_neg fun hboth => hlevel hboth.1]
  | _ => rfl

theorem Returns.step (hr : m.Returns) (hi : m.Inv g) {label : ℕ × Event}
    (h : m.step label = some m') : m'.Returns := by
  unfold Machine.step at h
  rw [Option.map_eq_some_iff] at h
  obtain ⟨⟨t', pc'⟩, hstep, rfl⟩ := h
  have hm := Pc.moves_of_step hstep
  have hok := hi.threads label.1
  refine ⟨fun v hv => ?_, fun v key lookup hv => ?_, fun v e newest hv => ?_⟩
  all_goals dsimp only at hv ⊢
  · split_ifs with hgetting hcall
    · exact List.mem_append_right _ (List.mem_singleton_self _)
    · exact List.mem_singleton_self _
    · by_cases hlabel : v = label.1
      · rw [hlabel, Function.update_self] at hv
        exact absurd ⟨hlabel, hv⟩ hcall
      · rw [Function.update_of_ne hlabel] at hv
        exact absurd hv hgetting
  · -- a lookup that ends in this step answers from the bottom level as it is now
    by_cases hlabel : v = label.1
    · subst hlabel
      rw [Function.update_self] at hv
      obtain ⟨hgetting, hlookup⟩ := answered_of_moves hi.levels hok hm hv
      rw [if_pos hgetting]
      exact ⟨_, List.mem_append_left _ (hr.getting _ hgetting), hlookup⟩
    · rw [Function.update_of_ne hlabel] at hv
      rw [if_neg (by simp [hv, Pc.isGetting]), if_neg fun hboth => hlabel hboth.1]
      exact hr.answered v key lookup hv
  · by_cases hlabel : v = label.1
    · subst hlabel
      rw [Function.update_self] at hv
      rcases verdict_of_moves hm hv with hold | ⟨l, found, slot, hpc, hlevel, hslot,
        hsame, rfl, rfl⟩
      · rw [linksBottom_of_verdict hold, if_neg (by simp)]
        exact hr.inserted _ e newest hold
      · -- the node is linked in this step
        rw [hpc] at hok
        obtain ⟨hl, hfound, -⟩ := hok
        obtain ⟨n, hn, hheight⟩ := hi.levels.node (by decide : 0 < maxHeight) (hfound 0).pred_mem
        obtain rfl : n.tower + 0 = slot := by
          rw [SkipMemtable.slot_of_nodes hn hheight] at hslot
          exact Except.ok.inj hslot
        have hswaps : l.swaps m.table found = true := by
          rw [Linking.swaps, hlevel, SkipMemtable.next_of_nodes hn hheight]
          exact decide_eq_true hsame
        have hbottom : Pc.linksBottom m.table (m.thread label.1) = some l.index := by
          rw [hpc]
          exact if_pos ⟨hlevel, hswaps⟩
        rw [hbottom, if_pos Option.isSome_some, Function.update_self]
        refine isNewest_iff hi.levels (hfound 0) ?_
        rw [SkipMemtable.succ_of_nodes hn hheight, hsame]
    · rw [Function.update_of_ne hlabel] at hv
      have hsame : (if (Pc.linksBottom m.table (m.thread label.1)).isSome = true then
          Function.update m.linkedTo label.1 m.table.bottom else m.linkedTo) v = m.linkedTo v := by
        split_ifs
        · exact Function.update_of_ne hlabel _ _
        · rfl
      rw [hsame]
      exact hr.inserted v e newest hv

theorem returns_initial (table : SkipMemtable) : (initial table).Returns where
  getting _ h := by cases h
  answered _ _ _ h := by cases h
  inserted _ _ _ h := by cases h

/-- The runs of threads whose inserts bring pairwise distinct pairs of key and number. -/
abbrev Runs (budget capacity : ℕ) (m : Machine) : Prop :=
  Reachable step Fresh (· = initial (.withCapacity budget capacity)) m

theorem inv_of_runs {budget capacity : ℕ} (hm : Runs budget capacity m) :
    (∃ g, m.Inv g) ∧ m.Returns := by
  induction hm with
  | start h =>
    subst h
    exact ⟨inv_initial budget capacity, returns_initial _⟩
  | step _ hfresh h ih =>
    obtain ⟨⟨g, hi⟩, hr⟩ := ih
    exact ⟨hi.step hfresh h, hr.step hi h⟩

end Machine

/-- Every level is part of the bottom one. -/
theorem Levels.sublist (hv : Levels t plan chain) (l : ℕ) : (chain l).Sublist (chain 0) := by
  have : Std.Antisymm (Sorts t) := ⟨fun i j hij hji => absurd (hij.trans hji) (Sorts.irrefl i)⟩
  refine List.sublist_of_subperm_of_pairwise ?_ (List.pairwise_cons.mp (hv.sorted l)).2
    (List.pairwise_cons.mp (hv.sorted 0)).2
  exact (List.nodup_cons.mp (hv.nodup l)).2.subperm fun i hi => hv.mem_bottom hi

/-- **The lock-free skiplist.**  Whatever steps any number of threads take in `insert` and `get`, as
long as no two inserts bring the same key with the same number:

* the bottom level is a chain from the head to `NIL`, strictly ordered by key and then from the
  highest number to the lowest, and holds exactly the nodes whose bottom compare-and-swap succeeded;
* every upper level is a strictly ordered part of it, made of nodes with towers that reach it;
* no thread reads an entry that is not published or a link outside the tower of a node;
* a `get` answers with the newest version of its key on the bottom level at some moment of the call;
* an `insert` returns `true` exactly if no version of its key with a higher number was on the bottom
  level when its node was linked. -/
theorem skiplist_linearizable {budget capacity : ℕ} {m : Machine}
    (hm : Machine.Runs budget capacity m) :
    (Chain (m.table.succ 0) head (m.table.level 0)
      ∧ (m.table.level 0).Pairwise (Sorts m.table)
      ∧ ∀ i, i ∈ m.table.level 0 ↔ i ∈ m.linked)
    ∧ (∀ l < maxHeight, Chain (m.table.succ l) head (m.table.level l)
      ∧ (m.table.level l).Pairwise (Sorts m.table)
      ∧ (m.table.level l).Sublist (m.table.level 0)
      ∧ ∀ i ∈ m.table.level l, ∃ n, m.table.nodes i = some n ∧ l < n.height)
    ∧ (∀ u panic, m.thread u = .panicked panic → panic ≠ .unpublished ∧ panic ≠ .tower)
    ∧ (∀ u key lookup, m.thread u = .answered key lookup →
      ∃ bottom ∈ m.since u, lookup = Lookup.ofEntry (newest bottom key))
    ∧ ∀ u e newest, m.thread u = .inserted e newest →
      (newest = true ↔ ∀ v ∈ m.linkedTo u, v.key = e.key → ¬e.seq < v.seq) := by
  obtain ⟨⟨g, hi⟩, hr⟩ := Machine.inv_of_runs hm
  have hv := hi.levels
  have hlevel : ∀ l < maxHeight, m.table.level l = g.chain l := fun l hl => hv.level_eq hl
  have hbottom := hlevel 0 (by decide)
  have hsorted : ∀ l, (g.chain l).Pairwise (Sorts m.table) := fun l =>
    (List.pairwise_cons.mp (hv.sorted l)).2
  refine ⟨?_, fun l hl => ?_, fun u panic hu => ?_, hr.answered, fun u e newest hu => ?_⟩
  · rw [hbottom]
    exact ⟨hv.chained 0 (by decide), hsorted 0, hi.linked⟩
  · rw [hlevel l hl, hbottom]
    exact ⟨hv.chained l hl, hsorted l, hv.sublist l, hv.tall l⟩
  · have hok := hi.threads u
    rwa [hu] at hok
  · exact hr.inserted u e newest (by rw [hu]; rfl)

end

/-- Two inserts of one key race for the head; the older one finds its compare-and-swap fail, walks
again and is linked behind the newer, while a third thread looks the key up. -/
def racingInserts : List (ℕ × Event) :=
  List.flatten [[(1, .insert ⟨[1], 1, some [7]⟩)], List.replicate 9 (1, .step),
    [(2, .insert ⟨[1], 2, some [8]⟩)], List.replicate 10 (2, .step),
    [(3, .get [1]), (3, .step)], List.replicate 6 (1, .step), [(3, .step)]]

/-- What a thread at this point has returned from `insert`. -/
def Pc.inserted? : Pc → Option (Entry × Bool)
  | .inserted e newest => some (e, newest)
  | _ => none

/-- What a thread at this point has returned from `get`. -/
def Pc.answered? : Pc → Option (Bytes × Lookup)
  | .answered key lookup => some (key, lookup)
  | _ => none

theorem Pc.eq_inserted {pc : Pc} {e : Entry} {newest : Bool}
    (h : pc.inserted? = some (e, newest)) : pc = .inserted e newest := by
  cases pc with
  | inserted =>
    obtain ⟨rfl, rfl⟩ := Prod.mk.inj (Option.some.inj h)
    rfl
  | _ => cases h

theorem Pc.eq_answered {pc : Pc} {key : Bytes} {lookup : Lookup}
    (h : pc.answered? = some (key, lookup)) : pc = .answered key lookup := by
  cases pc with
  | answered =>
    obtain ⟨rfl, rfl⟩ := Prod.mk.inj (Option.some.inj h)
    rfl
  | _ => cases h

theorem skiplist_linearizable_racingInserts : ∃ m : Machine,
    m.thread 1 = .inserted ⟨[1], 1, some [7]⟩ false
      ∧ (∃ v ∈ m.linkedTo 1, v.key = [1] ∧ 1 < v.seq)
      ∧ (∀ i, i ∈ m.table.level 0 ↔ i ∈ m.linked) ∧ m.linked = [2, 1]
      ∧ m.thread 3 = .answered [1] (.found [8])
      ∧ ∃ bottom ∈ m.since 3, .found [8] = Lookup.ofEntry (newest bottom [1]) := by
  let test (m : Machine) : Bool := m.linked = [2, 1]
    && (m.thread 1).inserted? = some (⟨[1], 1, some [7]⟩, false)
    && (m.thread 3).answered? = some ([1], .found [8])
  obtain ⟨m, hm, htest⟩ : ∃ m, Machine.Runs 0 8 m ∧ test m = true :=
    Reachable.exists_of_run (fun _ _ h => of_decide_eq_true h) rfl
      (by decide +kernel : (run Machine.step (fun m label => decide (m.Fresh label))
        (.initial (.withCapacity 0 8)) racingInserts).map test = some true)
  simp only [test, Bool.and_eq_true, decide_eq_true_iff] at htest
  obtain ⟨⟨hlinked, hone⟩, hthree⟩ := htest
  replace hone := Pc.eq_inserted hone
  replace hthree := Pc.eq_answered hthree
  obtain ⟨⟨-, -, hbottom⟩, -, -, hget, hinsert⟩ := skiplist_linearizable hm
  refine ⟨m, hone, ?_, hbottom, hlinked, hthree, hget 3 _ _ hthree⟩
  by_contra hnone
  refine absurd ((hinsert 1 _ _ hone).mpr fun v hv hkey hlt => hnone ⟨v, hv, hkey, hlt⟩) (by simp)

end Lsmkv.Skiplist
