import Lsmkv.Skiplist.Threads

/-!
# Every step keeps the levels
-/

namespace Lsmkv.Skiplist

section

variable {t t' : SkipMemtable} {g : Ghost} {called : List (Bytes × ℕ)} {u : ℕ}

/-! ### Steps that only read -/

theorem reserve_ok {index start : ℕ} {e : Entry} (he : Unplanned g called u e)
    (hi : Numbered t g u index) : (reserve t index e start).Ok t g called u := by
  unfold reserve
  split_ifs with hnone
  · exact ⟨by simp, by simp⟩
  · exact ⟨he, hi, hnone⟩

theorem raise_ok {index top : ℕ} {node : Node} (h : (Linking.mk index node 0 false).Ok t g u) :
    (raise index node top).Ok t g called u := by
  unfold raise
  split_ifs
  · exact h
  · exact h

theorem settled_ok {goal : Goal} {found : Found} (hgoal : goal.Ok t g u)
    (hfound : ∀ k, goal.Bracket t g found k) : (settled t goal found).Ok t g called u := by
  cases goal with
  | link l => exact ⟨hgoal, hfound⟩
  | get key =>
    unfold settled
    cases hsucc : found.succs 0 with
    | none => trivial
    | some candidate =>
      obtain ⟨n, hn, -⟩ := (hfound 0).succ_not candidate hsucc
      simp only [SkipMemtable.entry_of_nodes hn]
      split_ifs <;> trivial

theorem descended_ok (hv : Levels t g.plan g.chain) {goal : Goal} {level node : ℕ} {found : Found}
    (hgoal : goal.Ok t g u) (hlevel : level < maxHeight) (hnode : node ∈ head :: g.chain level)
    (hlt : node = head ∨ ∃ n, t.nodes node = some n ∧ Precedes n.entry goal.key goal.seq)
    (hfound : ∀ k, level ≤ k → goal.Bracket t g found k) :
    (descended t goal level node found).Ok t g called u := by
  cases level with
  | zero => exact settled_ok hgoal fun k => hfound k (Nat.zero_le k)
  | succ level =>
    -- what is on a level is on the level below
    refine ⟨hgoal, by omega, ?_, hlt, fun k hk => hfound k hk⟩
    exact List.cons_subset_cons _ (hv.nested level) hnode

theorem walked_ok (hv : Levels t g.plan g.chain) {goal : Goal} {level node : ℕ} {found : Found}
    {next : Option ℕ} (h : (Pc.walking goal level node found).Ok t g called u)
    (hnext : t.next node level = .ok next) :
    (walked t goal level node found next).Ok t g called u := by
  obtain ⟨hgoal, hlevel, hnode, hlt, hfound⟩ := h
  obtain ⟨n, hn, hheight⟩ := hv.node hlevel hnode
  obtain ⟨front, rest, hsplit, hrest, hmem⟩ := hv.split hlevel hnode
  have hnext' : next = rest.head? := by
    rw [SkipMemtable.next_of_nodes hn hheight] at hnext
    rw [← hrest, SkipMemtable.succ_of_nodes hn hheight]
    exact (Except.ok.inj hnext).symm
  have hset : ∀ k, level ≤ k → (∀ i ∈ next, i ∈ g.chain level
      ∧ ∃ m, t.nodes i = some m ∧ ¬Precedes m.entry goal.key goal.seq) →
      goal.Bracket t g (found.set level node next) k := by
    intro k hk hsucc
    unfold Goal.Bracket Found.set
    dsimp only
    by_cases hkl : k = level
    · subst hkl
      rw [Function.update_self, Function.update_self]
      exact ⟨hnode, hlt, fun i hi => (hsucc i hi).1, fun i hi => (hsucc i hi).2⟩
    · rw [Function.update_of_ne hkl, Function.update_of_ne hkl]
      exact hfound k (by omega)
  cases next with
  | none =>
    refine descended_ok hv hgoal hlevel hnode hlt fun k hk => hset k hk ?_
    intro i hi
    cases hi
  | some i =>
    have hi : i ∈ g.chain level := hmem i (List.mem_of_head? hnext'.symm)
    obtain ⟨m, hm, -⟩ := hv.tall level i hi
    unfold walked
    simp only [SkipMemtable.entry_of_nodes hm]
    split_ifs with hlt'
    · -- still in front of the goal: the walk goes on along the level
      exact ⟨hgoal, hlevel, List.mem_cons_of_mem _ hi,
        Or.inr ⟨m, hm, order_eq_lt_iff.mp hlt'⟩, hfound⟩
    · refine descended_ok hv hgoal hlevel hnode hlt fun k hk => hset k hk ?_
      intro j hj
      obtain rfl := Option.some.inj hj
      exact ⟨hi, m, hm, fun hprec => hlt' (order_eq_lt_iff.mpr hprec)⟩

/-! ### One step -/

/-- Counters and entries move on, and nobody else has a part in it. -/
theorem Frame.of_counters (hcapacity : t'.capacity = t.capacity)
    (hnode : t.nextNode ≤ t'.nextNode) (hnodes : ∀ i n, t.nodes i = some n → t'.nodes i = some n)
    (hhidden : ∀ i, g.owner i ≠ u → t'.nodes i = t.nodes i) (hlinks : t'.links = t.links) :
    Frame u t g called t' g called :=
  { Frame.refl u t g called with
    capacity := hcapacity
    nextNode := hnode
    nodes := hnodes
    hidden := fun i hi hnone => (hhidden i hi).trans hnone
    links := fun _ _ _ _ _ _ _ => by rw [hlinks] }

/-- The table and the threads after a step, as far as the levels go. -/
def StepOk (u : ℕ) (t : SkipMemtable) (g : Ghost) (called : List (Bytes × ℕ)) (pc : Pc)
    (t' : SkipMemtable) (called' : List (Bytes × ℕ)) (pc' : Pc) : Prop :=
  ∃ g', Frame u t g called t' g' called' ∧ Levels t' g'.plan g'.chain
    ∧ (∀ i n, g'.plan i = some n → i ≠ head → pair n.entry ∈ called')
    ∧ pc'.Ok t' g' called' u
    ∧ ∀ i, i ∈ g'.chain 0 ↔ i ∈ g.chain 0 ∨ pc.linksBottom t = some i

/-- A step that only moves the thread. -/
theorem StepOk.of_read (hv : Levels t g.plan g.chain)
    (hcalled : ∀ i n, g.plan i = some n → i ≠ head → pair n.entry ∈ called) {pc pc' : Pc}
    (h : pc'.Ok t g called u) (hlinks : pc.linksBottom t = none) :
    StepOk u t g called pc t called pc' :=
  ⟨g, Frame.refl u t g called, hv, hcalled, h, fun i => by simp [hlinks]⟩

theorem StepOk.reserve (hv : Levels t g.plan g.chain)
    (hcalled : ∀ i n, g.plan i = some n → i ≠ head → pair n.entry ∈ called) {index : ℕ} {e : Entry}
    (h : (Pc.reserving index e t.nextLink).Ok t g called u) :
    StepOk u t g called (.reserving index e t.nextLink)
      { t with nextLink := t.nextLink + t.shorten (heightFor index) t.nextLink } called
      (.towered index ⟨e, t.nextLink, t.shorten (heightFor index) t.nextLink⟩) := by
  obtain ⟨he, hi, hheight⟩ := h
  set node : Node := ⟨e, t.nextLink, t.shorten (heightFor index) t.nextLink⟩
  have hmax : node.height ≤ maxHeight := (Nat.min_le_left _ _).trans (heightFor_bounds index).2
  have hlevels := hv.reserve (n := node) hi.lt hi.plan rfl hmax he.seq he.unused
  have hne : index ≠ head := by
    intro heq
    have := hi.plan
    rw [heq, hv.published _ _ hv.sentinel] at this
    cases this
  refine ⟨{ g with plan := Function.update g.plan index (some node) }, ?_, hlevels, ?_, ?_, ?_⟩
  · refine { Frame.refl u t g called with
      plan := fun i n hin => ?_, unplanned := fun i howner hin _ => ?_
      planned := fun i n hin => ?_ }
    · refine (Function.update_of_ne ?_ _ _).trans hin
      rintro rfl
      rw [hi.plan] at hin
      cases hin
    · refine (Function.update_of_ne ?_ _ _).trans hin
      rintro rfl
      exact howner hi.owner
    · rcases update_plan_cases hin with ⟨-, rfl⟩ | ⟨-, hin⟩
      · exact Or.inr he.caller
      · exact Or.inl hin
  · intro i n hin hhead
    rcases update_plan_cases hin with ⟨-, rfl⟩ | ⟨-, hin⟩
    · exact he.mem_called
    · exact hcalled i n hin hhead
  · refine ⟨⟨Function.update_self _ _ _, hi.owner, hne, Nat.pos_of_ne_zero hheight⟩, ?_⟩
    -- what is published is planned
    cases hnode : t.nodes index with
    | none => rfl
    | some n =>
      have := hv.published index n hnode
      rw [hi.plan] at this
      cases this
  · exact fun i => by simp [Pc.linksBottom]

theorem StepOk.publish (hv : Levels t g.plan g.chain)
    (hcalled : ∀ i n, g.plan i = some n → i ≠ head → pair n.entry ∈ called) {index : ℕ}
    {node : Node} (h : (Pc.counted index node).Ok t g called u) :
    StepOk u t g called (.counted index node)
      { t with nodes := Function.update t.nodes index (some node) } called
      (.published index node) := by
  obtain ⟨howns, hnone⟩ := h
  have hnodes : ∀ i n, t.nodes i = some n →
      Function.update t.nodes index (some node) i = some n := by
    intro i n hin
    refine (Function.update_of_ne ?_ _ _).trans hin
    rintro rfl
    rw [hnone] at hin
    cases hin
  refine ⟨g, Frame.of_counters rfl le_rfl hnodes (fun i howner => ?_) rfl,
    hv.congr rfl hnodes (fun i n hin => ?_) le_rfl le_rfl hv.top, hcalled, ?_, ?_⟩
  · refine Function.update_of_ne ?_ _ _
    rintro rfl
    exact howner howns.owner
  · dsimp only at hin
    by_cases heq : i = index
    · rw [heq, Function.update_self] at hin
      rw [heq, howns.plan, hin]
    · rw [Function.update_of_ne heq] at hin
      exact hv.published i n hin
  · refine ⟨howns, Function.update_self _ _ _, howns.height, fun k hk => absurd hk k.not_lt_zero,
      fun hmem => ?_⟩
    -- what is on a level was published before
    obtain ⟨n, hn, -⟩ := hv.tall 0 index hmem
    rw [hnone] at hn
    cases hn
  · exact fun i => by simp [Pc.linksBottom]

theorem StepOk.store (hv : Levels t g.plan g.chain)
    (hcalled : ∀ i n, g.plan i = some n → i ≠ head → pair n.entry ∈ called) {l : Linking}
    {found : Found} (h : (Pc.linking l found).Ok t g called u) :
    StepOk u t g called (.linking l found)
      (t.setLink (l.node.tower + l.level) (found.succs l.level)) called (.stored l found) := by
  obtain ⟨hl, hfound⟩ := h
  refine ⟨g, ?_, hv.store hl.owns.plan hl.level hl.not_mem_cons _, hcalled,
    ⟨⟨hl.owns, hl.node, hl.level, hl.below, hl.not_mem⟩, fun k => ?_, ?_⟩,
    fun i => by simp [Pc.linksBottom]⟩
  · refine { Frame.refl u t g called with links := fun i n k hi hk howner _ => ?_ }
    refine Function.update_of_ne (fun heq => howner ?_) _ _
    obtain ⟨rfl, -⟩ := hv.slot_inj hi hl.owns.plan hk hl.level heq
    exact hl.owns.owner
  · exact Skiplist.Bracket.mono (hfound k) (fun _ _ h => h) fun _ h => h
  · exact Function.update_self _ _ _

/-- **The compare-and-swap succeeds.** -/
theorem StepOk.swap (hv : Levels t g.plan g.chain)
    (hcalled : ∀ i n, g.plan i = some n → i ≠ head → pair n.entry ∈ called) {l : Linking}
    {found : Found} {slot : ℕ} (h : (Pc.stored l found).Ok t g called u)
    (hslot : t.slot (found.preds l.level) l.level = .ok slot)
    (hsame : t.links slot = found.succs l.level) (newest : Bool) :
    StepOk u t g called (.stored l found) (t.setLink slot (some l.index)) called
      (l.linked newest found) := by
  obtain ⟨hl, hfound, hstored⟩ := h
  have hmax : l.level < maxHeight := hl.level.trans_le (hv.tower _ _ hl.owns.plan).2
  obtain ⟨m, hm, hheight⟩ := hv.node hmax (hfound l.level).pred_mem
  obtain rfl : m.tower + l.level = slot := by
    rw [SkipMemtable.slot_of_nodes hm hheight] at hslot
    exact Except.ok.inj hslot
  -- the exchange succeeded, so the pair found is still adjacent and the node goes between
  obtain ⟨new, hnew, hlevels⟩ := hv.swap hl.node hl.level hl.not_mem_cons
    hl.below (hfound l.level) hm hheight hsame hstored
  have hmem : ∀ k i, i ∈ Function.update g.chain l.level new k
      ↔ i ∈ g.chain k ∨ i = l.index ∧ k = l.level := by
    intro k i
    by_cases hk : k = l.level
    · rw [hk, Function.update_self, hnew]
      tauto
    · rw [Function.update_of_ne hk]
      tauto
  have hswaps : l.swaps t found = true := by
    unfold Linking.swaps
    simp only [SkipMemtable.next_of_nodes hm hheight]
    exact decide_eq_true hsame
  refine ⟨{ g with chain := Function.update g.chain l.level new }, ?_, hlevels, hcalled, ?_, ?_⟩
  · refine { Frame.refl u t g called with
      chain := fun k i hi => (hmem k i).mpr (Or.inl hi), fresh := fun k i hi => ?_
      links := fun i n k hi hk _ hnot => ?_ }
    · rcases (hmem k i).mp hi with hi | ⟨rfl, -⟩
      · exact Or.inl hi
      · exact Or.inr hl.owns.owner
    · -- the slot written belongs to a node on this level
      refine Function.update_of_ne (fun heq => hnot ?_) _ _
      obtain ⟨rfl, rfl⟩ := hv.slot_inj hi (hv.published _ _ hm) hk hheight heq
      exact (hfound l.level).pred_mem
  · unfold Linking.linked
    split_ifs with hmore
    · refine ⟨⟨⟨hl.owns.plan, hl.owns.owner, hl.owns.ne_head, hl.owns.height⟩, hl.node, hmore,
        fun k hk => (hmem k _).mpr ?_, fun hup => ?_⟩, fun k => ?_⟩
      · rcases Nat.lt_succ_iff_lt_or_eq.mp hk with hk | rfl
        · exact Or.inl (hl.below k hk)
        · exact Or.inr ⟨rfl, rfl⟩
      · rcases (hmem _ _).mp hup with hup | ⟨-, heq⟩
        · exact hl.not_mem (hv.nested _ _ hup)
        · exact absurd heq (Nat.succ_ne_self _)
      · exact Skiplist.Bracket.mono (hfound k) (fun _ _ h => h) fun i hi =>
          (hmem k i).mpr (Or.inl hi)
    · trivial
  · intro i
    rw [hmem, Pc.linksBottom]
    simp only [hswaps, and_true]
    split_ifs with hlevel
    · simp [hlevel, eq_comm]
    · simp [Ne.symm hlevel]

/-- **Every step keeps the levels**, and what the thread knows. -/
theorem stepOk_of_moves (hv : Levels t g.plan g.chain)
    (hcalled : ∀ i n, g.plan i = some n → i ≠ head → pair n.entry ∈ called) {pc pc' : Pc}
    {event : Event} (h : pc.Ok t g called u) (hfresh : ∀ p ∈ event.calls, p ∉ called)
    (hm : pc.Moves t event t' pc') : StepOk u t g called pc t' (event.calls ++ called) pc' := by
  cases hm with
  | @call e hseq =>
    have hnot : pair e ∉ called := hfresh _ (List.mem_singleton_self _)
    refine ⟨{ g with caller := Function.update g.caller (pair e) u }, ?_, hv, ?_, ?_,
      fun i => by simp [Pc.linksBottom]⟩
    · refine { Frame.refl u t g called with
        calls := fun p hp => List.mem_append_right _ hp, caller := fun p hp => ?_ }
      refine Function.update_of_ne ?_ _ _
      rintro rfl
      exact hnot hp
    · exact fun i n hi hhead => List.mem_append_right _ (hcalled i n hi hhead)
    · refine ⟨hseq, List.mem_append_left _ (List.mem_singleton_self _), Function.update_self _ _ _,
        fun i n hi hhead heq => hnot ?_⟩
      rw [← heq]
      exact hcalled i n hi hhead
  | look => exact StepOk.of_read hv hcalled trivial rfl
  | exhaust | overflow =>
    refine ⟨g, Frame.of_counters rfl (Nat.le_succ _) (fun _ _ h => h) (fun _ _ => rfl) rfl,
      hv.congr rfl (fun _ _ h => h) hv.published (Nat.le_succ _) le_rfl hv.top, hcalled,
      ⟨by simp, by simp⟩, fun i => by simp [Pc.linksBottom]⟩
  | number =>
    refine ⟨{ g with owner := Function.update g.owner t.nextNode u }, ?_,
      hv.congr rfl (fun _ _ h => h) hv.published (Nat.le_succ _) le_rfl hv.top, hcalled, ?_,
      fun i => by simp [Pc.linksBottom]⟩
    · refine { Frame.refl u t g called with
        nextNode := Nat.le_succ _, owner := fun i hi => Function.update_of_ne hi.ne _ _ }
    · refine ⟨⟨h.seq, h.mem_called, h.caller, h.unused⟩, Nat.lt_succ_self _, ?_,
        Function.update_self _ _ _⟩
      cases hplan : g.plan t.nextNode with
      | none => rfl
      | some n => exact absurd (hv.numbered _ n hplan) (lt_irrefl _)
  | load => exact StepOk.of_read hv hcalled (reserve_ok h.1 h.2) rfl
  | reload hcalls =>
    rw [hcalls]
    exact StepOk.of_read hv hcalled (reserve_ok h.1 h.2.1) rfl
  | take => exact StepOk.reserve hv hcalled h
  | count =>
    exact ⟨g, Frame.of_counters rfl le_rfl (fun _ _ h => h) (fun _ _ => rfl) rfl,
      hv.congr rfl (fun _ _ h => h) hv.published le_rfl le_rfl hv.top, hcalled, h,
      fun i => by simp [Pc.linksBottom]⟩
  | publish => exact StepOk.publish hv hcalled h
  | loadTop => exact StepOk.of_read hv hcalled (raise_ok h) rfl
  | reloadTop hcalls =>
    rw [hcalls]
    exact StepOk.of_read hv hcalled (raise_ok h) rfl
  | @raiseTop index node =>
    have hl : (Linking.mk index node 0 false).Ok t g u := h
    exact ⟨g, Frame.of_counters rfl le_rfl (fun _ _ h => h) (fun _ _ => rfl) rfl,
      hv.congr rfl (fun _ _ h => h) hv.published le_rfl le_rfl
        ⟨hl.owns.height, (hv.tower _ _ hl.owns.plan).2⟩, hcalled,
      ⟨hl.owns, hl.node, hl.level, hl.below, hl.not_mem⟩, fun i => by simp [Pc.linksBottom]⟩
  | @search goal found top htop =>
    have hmax := hv.top.2
    refine StepOk.of_read hv hcalled ⟨h, by omega, List.mem_cons_self, Or.inl rfl,
      fun k hk => ?_⟩ rfl
    unfold Goal.Bracket Found.fill
    dsimp only
    rw [if_pos (Nat.succ_le_of_lt hk), if_pos (Nat.succ_le_of_lt hk)]
    exact ⟨List.mem_cons_self, Or.inl rfl, by simp, by simp⟩
  | searchNothing htop => exact absurd hv.top.1 (by omega)
  | walk hnext => exact StepOk.of_read hv hcalled (walked_ok hv h hnext) rfl
  | walkPanic hnext =>
    obtain ⟨n, hn, hheight⟩ := hv.node h.2.1 h.2.2.1
    rw [SkipMemtable.next_of_nodes hn hheight] at hnext
    cases hnext
  | store => exact StepOk.store hv hcalled h
  | swap hslot hsame => exact StepOk.swap hv hcalled h hslot hsame _
  | @swapFail l found slot hslot hmoved =>
    refine StepOk.of_read hv hcalled h.1 ?_
    have hnext : t.next (found.preds l.level) l.level = .ok (t.links slot) := by
      rw [SkipMemtable.next, hslot]
      rfl
    simp [Pc.linksBottom, Linking.swaps, hnext, hmoved]
  | swapPanic hslot =>
    obtain ⟨hl, hfound, -⟩ := h
    obtain ⟨m, hm, hheight⟩ :=
      hv.node (hl.level.trans_le (hv.tower _ _ hl.owns.plan).2) (hfound _).pred_mem
    rw [SkipMemtable.slot_of_nodes hm hheight] at hslot
    cases hslot
  | finishInsert => exact StepOk.of_read hv hcalled trivial rfl
  | finishGet => exact StepOk.of_read hv hcalled trivial rfl

end

end Lsmkv.Skiplist
