import Lsmkv.Skiplist.Linearizable

/-!
# A call that runs alone

`alone n` lets one thread take `n` steps while all others stand still.  A call that runs alone ends:
`alone_insert` follows an `insert` to its return, and `alone_get` a `get`, in a number of steps that
the number of nodes bounds.  What a walk finds is still there when the thread gets to link its node,
so every compare-and-swap succeeds the first time.
-/

namespace Lsmkv.Skiplist

/-- A thread takes so many steps, or fewer if its call ends before. -/
def alone : ℕ → SkipMemtable × Pc → SkipMemtable × Pc
  | 0, s => s
  | n + 1, s =>
    match s.2.step s.1 .step with
    | none => s
    | some s' => alone n s'

theorem alone_of_stopped {s : SkipMemtable × Pc} (h : s.2.step s.1 .step = none) (n : ℕ) :
    alone n s = s := by
  cases n with
  | zero => rfl
  | succ n => rw [alone, h]

theorem alone_succ {s s' : SkipMemtable × Pc} (h : s.2.step s.1 .step = some s') (n : ℕ) :
    alone (n + 1) s = alone n s' := by
  rw [alone, h]

theorem alone_add (m n : ℕ) (s : SkipMemtable × Pc) : alone (m + n) s = alone n (alone m s) := by
  induction m generalizing s with
  | zero => rw [Nat.zero_add]; rfl
  | succ m ih =>
    rw [Nat.add_right_comm]
    cases h : s.2.step s.1 .step with
    | none => rw [alone_of_stopped h, alone_of_stopped h, alone_of_stopped h]
    | some s' => rw [alone_succ h, alone_succ h, ih]

theorem alone_trans {m n : ℕ} {s s' s'' : SkipMemtable × Pc} (h : alone m s = s')
    (h' : alone n s' = s'') : alone (m + n) s = s'' := by
  rw [alone_add, h, h']

theorem alone_one {s s' : SkipMemtable × Pc} (h : s.2.step s.1 .step = some s') : alone 1 s = s' :=
  alone_succ h 0

/-- A call that has ended stays so. -/
theorem alone_of_le {m n : ℕ} {s s' : SkipMemtable × Pc} (h : alone m s = s')
    (hstop : s'.2.step s'.1 .step = none) (hle : m ≤ n) : alone n s = s' := by
  obtain ⟨k, rfl⟩ := Nat.exists_eq_add_of_le hle
  exact alone_trans h (alone_of_stopped hstop k)

section

variable {t t' : SkipMemtable} {plan : ℕ → Option Node} {chain : ℕ → List ℕ} {goal : Goal}
  {found : Found}

/-! ### The walk -/

/-- What the walk leaves at a level while nobody else moves. -/
structure Tight (t : SkipMemtable) (chain : ℕ → List ℕ) (goal : Goal) (found : Found) (k : ℕ) :
    Prop where
  bracket : Bracket t chain goal.key goal.seq k (found.preds k) (found.succs k)
  succ_eq : t.succ k (found.preds k) = found.succs k

theorem Found.set_of_ne {level k : ℕ} (found : Found) (pred : ℕ) (succ : Option ℕ)
    (h : k ≠ level) :
    (found.set level pred succ).preds k = found.preds k
      ∧ (found.set level pred succ).succs k = found.succs k :=
  ⟨Function.update_of_ne h _ _, Function.update_of_ne h _ _⟩

theorem Bracket.tight {level pred : ℕ}
    (hb : Bracket t chain goal.key goal.seq level pred (t.succ level pred)) (found : Found) :
    Tight t chain goal (found.set level pred (t.succ level pred)) level := by
  have hp : (found.set level pred (t.succ level pred)).preds level = pred :=
    Function.update_self _ _ _
  have hs : (found.set level pred (t.succ level pred)).succs level = t.succ level pred :=
    Function.update_self _ _ _
  exact ⟨by rwa [hp, hs], by rw [hp, hs]⟩

theorem Tight.congr {found' : Found} {k : ℕ} (h : Tight t chain goal found k)
    (hsame : found'.preds k = found.preds k ∧ found'.succs k = found.succs k) :
    Tight t chain goal found' k := by
  obtain ⟨hp, hs⟩ := hsame
  exact ⟨by rw [hp, hs]; exact h.bracket, by rw [hp, hs]; exact h.succ_eq⟩

/-- The turns of the walk on one level. -/
theorem alone_walk (hv : Linked t plan chain) (found : Found) {level node : ℕ} {rest : List ℕ}
    (hlevel : level < maxHeight) (hnode : node ∈ head :: chain level)
    (hchain : Chain (t.succ level) node rest) (hrest : ∀ i ∈ rest, i ∈ chain level)
    (hlt : node = head ∨ ∃ n, t.nodes node = some n ∧ Precedes n.entry goal.key goal.seq) :
    ∃ n ≤ rest.length + 1, ∃ pred, alone n (t, .walking goal level node found)
        = (t, descended t goal level pred (found.set level pred (t.succ level pred)))
      ∧ Bracket t chain goal.key goal.seq level pred (t.succ level pred) := by
  induction rest generalizing node with
  | nil =>
    obtain ⟨n, hn, hheight⟩ := hv.node hlevel hnode
    have hsucc : t.succ level node = none := hchain
    have hnext : t.next node level = .ok none := by
      rw [SkipMemtable.next_of_nodes hn hheight, ← SkipMemtable.succ_of_nodes hn hheight, hsucc]
    refine ⟨1, le_rfl, node, alone_one ?_, ⟨hnode, hlt, ?_, ?_⟩⟩
    · simp only [Pc.step, hnext, walked, hsucc]
    · simp [hsucc]
    · simp [hsucc]
  | cons i rest ih =>
    obtain ⟨n, hn, hheight⟩ := hv.node hlevel hnode
    obtain ⟨hsucc, hchain⟩ := hchain
    have hi : i ∈ chain level := hrest i List.mem_cons_self
    obtain ⟨m, hm, -⟩ := hv.tall level i hi
    have hnext : t.next node level = .ok (some i) := by
      rw [SkipMemtable.next_of_nodes hn hheight, ← SkipMemtable.succ_of_nodes hn hheight, hsucc]
    by_cases horder : order m goal.key goal.seq = .lt
    · -- the walk goes on from the next node
      obtain ⟨k, hk, pred, halone, hb⟩ := ih (List.mem_cons_of_mem _ hi) hchain
        (fun j hj => hrest j (List.mem_cons_of_mem _ hj))
          (Or.inr ⟨m, hm, order_eq_lt_iff.mp horder⟩)
      refine ⟨k + 1, Nat.succ_le_succ hk, pred, ?_, hb⟩
      have hstep : Pc.step t (.walking goal level node found) .step
          = some (t, .walking goal level i found) := by
        simp only [Pc.step, hnext, walked, SkipMemtable.entry_of_nodes hm, horder, if_true]
      exact (alone_succ hstep k).trans halone
    · refine ⟨1, by simp, node, alone_one ?_, ⟨hnode, hlt, ?_, ?_⟩⟩
      · simp only [Pc.step, hnext, walked, SkipMemtable.entry_of_nodes hm, horder, if_false, hsucc]
      · rw [hsucc]
        rintro j hj
        obtain rfl := Option.some.inj hj
        exact hi
      · rw [hsucc]
        rintro j hj
        obtain rfl := Option.some.inj hj
        exact ⟨m, hm, fun hprec => horder (order_eq_lt_iff.mpr hprec)⟩

/-- The walk along one level. -/
theorem Linked.alone_level (hv : Linked t plan chain) (found : Found) {level node : ℕ}
    (hlevel : level < maxHeight)
    (hnode : node ∈ head :: chain level)
    (hlt : node = head ∨ ∃ n, t.nodes node = some n ∧ Precedes n.entry goal.key goal.seq) :
    ∃ n ≤ t.nextNode + 1, ∃ pred, alone n (t, .walking goal level node found)
        = (t, descended t goal level pred (found.set level pred (t.succ level pred)))
      ∧ Bracket t chain goal.key goal.seq level pred (t.succ level pred) := by
  obtain ⟨front, rest, hsplit, hchain, hrest⟩ := hv.split_chain hlevel hnode
  obtain ⟨n, hn, pred, halone, hb⟩ := alone_walk hv found hlevel hnode hchain hrest hlt
  refine ⟨n, ?_, pred, halone, hb⟩
  have hlength := congrArg List.length hsplit
  rw [List.length_cons, List.length_append, List.length_cons] at hlength
  have := hv.length_le level
  omega

/-- The walk from a level down. -/
theorem alone_descend (hv : Linked t plan chain) (goal : Goal) (found : Found) {level node : ℕ}
    (hlevel : level < maxHeight)
    (hnode : node ∈ head :: chain level)
    (hlt : node = head ∨ ∃ n, t.nodes node = some n ∧ Precedes n.entry goal.key goal.seq) :
    ∃ n ≤ (level + 1) * (t.nextNode + 1), ∃ found',
      alone n (t, .walking goal level node found) = (t, settled t goal found')
        ∧ (∀ k ≤ level, Tight t chain goal found' k)
        ∧ ∀ k, level < k → found'.preds k = found.preds k ∧ found'.succs k = found.succs k := by
  induction level generalizing node found with
  | zero =>
    obtain ⟨n, hn, pred, halone, hb⟩ := hv.alone_level found hlevel hnode hlt
    refine ⟨n, by omega, _, halone, fun k hk => ?_, fun k hk => found.set_of_ne _ _ hk.ne'⟩
    obtain rfl := Nat.le_zero.mp hk
    exact hb.tight found
  | succ level ih =>
    obtain ⟨n, hn, pred, halone, hb⟩ := hv.alone_level found hlevel hnode hlt
    -- the walk goes down from a node that is on the level below as well
    have hpred : pred ∈ head :: chain level := by
      rcases List.mem_cons.mp hb.pred_mem with rfl | hmem
      · exact List.mem_cons_self
      · exact List.mem_cons_of_mem _ (hv.nested level pred hmem)
    obtain ⟨n', hn', found', halone', htight, hsame⟩ :=
      ih (found.set (level + 1) pred (t.succ (level + 1) pred))
        ((Nat.lt_succ_self level).trans hlevel) hpred hb.pred_lt
    refine ⟨n + n', ?_, found', alone_trans halone halone', fun k hk => ?_, fun k hk => ?_⟩
    · rw [Nat.succ_mul]
      omega
    · rcases Nat.lt_or_eq_of_le hk with hk | rfl
      · exact htight k (Nat.le_of_lt_succ hk)
      · exact (hb.tight found).congr (hsame _ (Nat.lt_succ_self level))
    · obtain ⟨hp, hs⟩ := hsame k ((Nat.lt_succ_self level).trans hk)
      obtain ⟨hp', hs'⟩ := found.set_of_ne pred (t.succ (level + 1) pred) hk.ne'
      exact ⟨hp.trans hp', hs.trans hs'⟩

/-- **The walk ends**, and brackets its target on every level in use. -/
theorem alone_search (hv : Linked t plan chain) (goal : Goal) (found : Found) :
    ∃ n ≤ maxHeight * (t.nextNode + 1) + 1, ∃ found',
      alone n (t, .searching goal found) = (t, settled t goal found')
        ∧ ∀ k < t.top, Tight t chain goal found' k := by
  obtain ⟨hpos, hmax⟩ := hv.top
  cases htop : t.top with
  | zero => omega
  | succ top =>
    obtain ⟨n, hn, found', halone, htight, -⟩ := alone_descend hv goal
      (found.fill (top + 1)) (show top < maxHeight by omega) List.mem_cons_self (Or.inl rfl)
    have hstep : Pc.step t (.searching goal found) .step
        = some (t, .walking goal top head (found.fill (top + 1))) := by
      simp only [Pc.step, htop]
    have hbound : (top + 1) * (t.nextNode + 1) ≤ maxHeight * (t.nextNode + 1) :=
      Nat.mul_le_mul_right _ (by omega)
    exact ⟨n + 1, by omega, found', (alone_succ hstep n).trans halone,
      fun k hk => htight k (Nat.le_of_lt_succ hk)⟩

/-! ### Linking -/

/-- A property of the table that linking a node keeps. -/
structure Keeps (P : SkipMemtable → (ℕ → Option Node) → (ℕ → List ℕ) → Prop) : Prop where
  linked : ∀ {t plan chain}, P t plan chain → Linked t plan chain
  store : ∀ {t plan chain} {index l : ℕ} {n : Node}, P t plan chain → plan index = some n →
    l < n.height → index ∉ head :: chain l → ∀ value, P (t.setLink (n.tower + l) value) plan chain
  swap : ∀ {t plan chain} {index l pred : ℕ} {n m : Node} {succ : Option ℕ}, P t plan chain →
    t.nodes index = some n → l < n.height → index ∉ head :: chain l → (∀ k < l, index ∈ chain k) →
    Bracket t chain n.entry.key n.entry.seq l pred succ → t.nodes pred = some m → l < m.height →
    t.links (m.tower + l) = succ → t.links (n.tower + l) = succ →
    ∃ new, (∀ i, i ∈ new ↔ i = index ∨ i ∈ chain l)
      ∧ P (t.setLink (m.tower + l) (some index)) plan (Function.update chain l new)

theorem keeps_levels : Keeps Levels where
  linked hv := hv.toLinked
  store hv hplan hl hnot := hv.store hplan hl hnot
  swap hv := hv.swap

theorem keeps_linked : Keeps Linked where
  linked hv := hv
  store hv hplan hl hnot := hv.store hplan hl hnot
  swap hv hnode hl hnot hbelow hb hm hheight hpred hown := by
    obtain ⟨-, -, new, -, -, -, hmem, hv'⟩ :=
      hv.swap hnode hl hnot hbelow hb.pred_mem hm hheight hpred hown
    exact ⟨new, hmem, hv'⟩

variable {P : SkipMemtable → (ℕ → Option Node) → (ℕ → List ℕ) → Prop}

/-- One level of a node is linked. -/
theorem alone_link_level (hP : Keeps P) (hv : P t plan chain) {l : Linking}
    (hnode : t.nodes l.index = some l.node) (hlevel : l.level < l.node.height)
    (hbelow : ∀ k < l.level, l.index ∈ chain k) (hnot : l.index ∉ head :: chain l.level)
    (htight : Tight t chain (.link l) found l.level) :
    ∃ links new, alone 2 (t, .linking l found) = ({ t with links := links },
          l.linked (if l.level = 0 then isNewest t l (found.preds l.level) else l.newest) found)
      ∧ P { t with links := links } plan (Function.update chain l.level new)
      ∧ (∀ i, i ∈ new ↔ i = l.index ∨ i ∈ chain l.level)
      ∧ ∀ k i n, t.nodes i = some n → k < n.height → k ≠ l.level →
        SkipMemtable.succ { t with links := links } k i = t.succ k i := by
  have hlinked := hP.linked hv
  have hplan := hlinked.published _ _ hnode
  obtain ⟨m, hm, hheight⟩ :=
    hlinked.node (hlevel.trans_le (hlinked.tower _ _ hplan).2) htight.bracket.pred_mem
  have hv₁ := hP.store hv hplan hlevel hnot (found.succs l.level)
  -- the store goes to another tower than the compare-and-swap
  have hne : m.tower + l.level ≠ l.node.tower + l.level := fun heq =>
    hnot ((hlinked.slot_inj hplan (hlinked.published _ _ hm) hlevel hheight heq.symm).1
      ▸ htight.bracket.pred_mem)
  have hpred : (t.setLink (l.node.tower + l.level) (found.succs l.level)).links (m.tower + l.level)
      = found.succs l.level := by
    refine (Function.update_of_ne hne _ _).trans ?_
    rw [← SkipMemtable.succ_of_nodes hm hheight, htight.succ_eq]
  obtain ⟨new, hmem, hv₂⟩ := hP.swap hv₁ hnode hlevel hnot hbelow
    (htight.bracket.mono (fun _ _ h => h) fun _ h => h) hm hheight hpred
    (Function.update_self _ _ _)
  refine ⟨_, new, ?_, hv₂, hmem, fun k i n hn hk hkl => ?_⟩
  · refine alone_succ (n := 1) rfl |>.trans (alone_one ?_)
    have hslot := SkipMemtable.slot_of_nodes
      (t := t.setLink (l.node.tower + l.level) (found.succs l.level)) hm hheight
    simp only [Pc.step, hslot, hpred, if_true]
    rfl
  · have hown : n.tower + k ≠ l.node.tower + l.level := fun heq =>
      hkl (hlinked.slot_inj (hlinked.published _ _ hn) hplan hk hlevel heq).2
    have hother : n.tower + k ≠ m.tower + l.level := fun heq =>
      hkl (hlinked.slot_inj (hlinked.published _ _ hn) (hlinked.published _ _ hm) hk hheight heq).2
    refine (succ_setLink (n := n) (t := t.setLink _ _) hn hk).trans ?_
    rw [if_neg hother, succ_setLink hn hk, if_neg hown]

theorem verdict_level (t : SkipMemtable) (l : Linking) (found : Found) :
    (if l.level = 0 then isNewest t l (found.preds l.level) else l.newest)
      = if l.level = 0 then isNewest t l (found.preds 0) else l.newest := by
  split_ifs with h
  · rw [h]
  · rfl

/-- What the bottom level gains while a node is linked. -/
theorem mem_update_zero {index level : ℕ} {new : List ℕ} (hbelow : ∀ k < level, index ∈ chain k)
    (hmem : ∀ i, i ∈ new ↔ i = index ∨ i ∈ chain level) (i : ℕ) :
    i ∈ Function.update chain level new 0 ↔ i = index ∨ i ∈ chain 0 := by
  rcases Nat.eq_zero_or_pos level with rfl | hpos
  · rw [Function.update_self]
    exact hmem i
  · rw [Function.update_of_ne hpos.ne]
    refine ⟨Or.inr, ?_⟩
    rintro (rfl | hi)
    · exact hbelow 0 hpos
    · exact hi

/-- The remaining levels of a node are linked from the lowest up. -/
theorem alone_link (hP : Keeps P) (hv : P t plan chain) {l : Linking}
    (hnode : t.nodes l.index = some l.node) (hlevel : l.level < l.node.height)
    (hbelow : ∀ k < l.level, l.index ∈ chain k)
    (hnot : ∀ k, l.level ≤ k → l.index ∉ head :: chain k)
    (htight : ∀ k, l.level ≤ k → k < l.node.height → Tight t chain (.link l) found k) :
    ∃ links chain', alone (2 * (l.node.height - l.level)) (t, .linking l found)
        = ({ t with links := links }, .inserted l.node.entry
            (if l.level = 0 then isNewest t l (found.preds 0) else l.newest))
      ∧ P { t with links := links } plan chain'
      ∧ ∀ i, i ∈ chain' 0 ↔ i = l.index ∨ i ∈ chain 0 := by
  -- on the number of levels still to link, two steps each
  obtain ⟨d, hd⟩ : ∃ d, l.node.height - l.level = d + 1 := ⟨l.node.height - l.level - 1, by omega⟩
  induction d generalizing t chain l with
  | zero =>
    obtain ⟨links, new, halone, hv', hmem, -⟩ :=
      alone_link_level hP hv hnode hlevel hbelow (hnot _ le_rfl) (htight _ le_rfl hlevel)
    refine ⟨links, _, ?_, hv', mem_update_zero hbelow hmem⟩
    rw [hd, ← verdict_level]
    rwa [Linking.linked, if_neg (by omega)] at halone
  | succ d ih =>
    obtain ⟨links, new, halone, hv', hmem, hsucc⟩ :=
      alone_link_level hP hv hnode hlevel hbelow (hnot _ le_rfl) (htight _ le_rfl hlevel)
    rw [Linking.linked, if_pos (by omega)] at halone
    have hupper : ∀ k, l.level + 1 ≤ k → Function.update chain l.level new k = chain k :=
      fun k hk => Function.update_of_ne (by omega) _ _
    obtain ⟨links', chain', halone', hv'', hmem'⟩ := ih hv' (l := { l with
        level := l.level + 1
        newest := if l.level = 0 then isNewest t l (found.preds l.level) else l.newest })
      hnode (by dsimp only; omega)
      (fun k hk => by
        rcases Nat.lt_or_eq_of_le (Nat.le_of_lt_succ hk) with hk | rfl
        · rw [Function.update_of_ne hk.ne]
          exact hbelow k hk
        · rw [Function.update_self]
          exact (hmem _).mpr (Or.inl rfl))
      (fun k hk => by
        rw [hupper k hk]
        exact hnot k ((Nat.le_succ _).trans hk))
      (fun k hk hheight => by
        have htight' := htight k ((Nat.le_succ _).trans hk) hheight
        have hlinked := hP.linked hv
        obtain ⟨m, hm, hm'⟩ := hlinked.node
          (hheight.trans_le (hlinked.tower _ _ (hlinked.published _ _ hnode)).2)
          htight'.bracket.pred_mem
        refine ⟨htight'.bracket.mono (fun _ _ h => h) fun i hi => ?_, ?_⟩
        · rwa [hupper k hk]
        · rw [hsucc k _ m hm hm' (Nat.ne_of_gt hk)]
          exact htight'.succ_eq)
      (by dsimp only; omega)
    refine ⟨links', chain', ?_, hv'', fun i => ?_⟩
    · rw [show 2 * (l.node.height - l.level) = 2 + 2 * (l.node.height - (l.level + 1)) by omega,
        ← verdict_level]
      exact alone_trans halone halone'
    · rw [hmem', mem_update_zero hbelow hmem]
      tauto

/-! ### A call from beginning to end -/

/-- No call is running: every node is linked. -/
structure Quiet (t : SkipMemtable) (chain : ℕ → List ℕ) : Prop where
  levels : Levels t t.nodes chain
  linked : ∀ i n, t.nodes i = some n → i ≠ head → i ∈ chain 0

theorem quiet_withCapacity (budget capacity : ℕ) :
    Quiet (.withCapacity budget capacity) fun _ => [] where
  levels := levels_withCapacity budget capacity
  linked i n hi hne := by cases (if_neg hne).symm.trans hi

/-- The next node, if it is for `e`. -/
def node (t : SkipMemtable) (e : Entry) : Node :=
  ⟨e, t.nextLink, t.shorten (heightFor t.nextNode) t.nextLink⟩

/-- The table once that node is published and the search covers its levels. -/
def publish (t : SkipMemtable) (e : Entry) : SkipMemtable :=
  { t with
    nextNode := t.nextNode + 1
    nextLink := t.nextLink + (node t e).height
    bytes := t.bytes + entryBytes e
    nodes := Function.update t.nodes t.nextNode (some (node t e))
    top := max t.top (node t e).height }

theorem alone_publish (e : Entry) (harena : t.nextNode < t.capacity)
    (hindex : t.nextNode < u32Limit - 1) (hlinks : t.nextLink < t.linkCount) :
    ∃ n ≤ 7, alone n (t, .insert e)
      = (publish t e, .searching (.link ⟨t.nextNode, node t e, 0, false⟩) Found.start) := by
  have hheight : t.shorten (heightFor t.nextNode) t.nextLink ≠ 0 := by
    have := (heightFor_bounds t.nextNode).1
    unfold SkipMemtable.shorten
    omega
  let t₁ : SkipMemtable := { t with nextNode := t.nextNode + 1 }
  let t₄ : SkipMemtable := { publish t e with top := t.top }
  have hnumber : alone 1 (t, .insert e) = (t₁, .numbered t.nextNode e) :=
    alone_one (by simp only [Pc.step, harena.not_ge, hindex.not_ge, if_false]; rfl)
  have hload : alone 1 (t₁, .numbered t.nextNode e) = (t₁, .reserving t.nextNode e t.nextLink) :=
    alone_one (congrArg (fun pc => some (t₁, pc)) (if_neg hheight))
  have hreserve : Pc.step t₁ (.reserving t.nextNode e t.nextLink) .step
      = some ({ t₁ with nextLink := t.nextLink + (node t e).height },
        .towered t.nextNode (node t e)) := if_pos rfl
  have htake : alone 3 (t₁, .reserving t.nextNode e t.nextLink)
      = (t₄, .published t.nextNode (node t e)) :=
    (alone_succ (s := (t₁, .reserving t.nextNode e t.nextLink)) hreserve 2).trans rfl
  have hpublished := alone_trans hnumber (alone_trans hload htake)
  by_cases htop : t.top < (node t e).height
  · refine ⟨1 + (1 + 3) + (1 + 1), le_rfl, alone_trans hpublished (alone_trans
      (alone_one (congrArg (fun pc => some (t₄, pc)) (if_pos htop)))
      (alone_one ((if_pos rfl).trans ?_)))⟩
    rw [publish, max_eq_right htop.le]
    rfl
  · refine ⟨1 + (1 + 3) + 1, by decide, alone_trans hpublished
      (alone_one ((congrArg (fun pc => some (t₄, pc)) (if_neg htop)).trans ?_))⟩
    rw [publish, max_eq_left (not_lt.mp htop)]
    rfl

theorem Linked.nodes_nextNode (hv : Linked t t.nodes chain) : t.nodes t.nextNode = none := by
  cases h : t.nodes t.nextNode with
  | none => rfl
  | some n => exact absurd (hv.numbered _ n h) (lt_irrefl _)

theorem Linked.nextNode_notMem (hv : Linked t t.nodes chain) (k : ℕ) :
    t.nextNode ∉ head :: chain k := by
  intro hmem
  rcases List.mem_cons.mp hmem with hhead | hmem
  · have := hv.numbered _ _ hv.sentinel
    omega
  · obtain ⟨n, hn, -⟩ := hv.tall k _ hmem
    rw [hv.nodes_nextNode] at hn
    cases hn

theorem Linked.nodes_publish (hv : Linked t t.nodes chain) (e : Entry) {i : ℕ} {n : Node}
    (h : t.nodes i = some n) : (publish t e).nodes i = some n := by
  refine (Function.update_of_ne ?_ _ _).trans h
  rintro rfl
  rw [hv.nodes_nextNode] at h
  cases h

theorem height_node_le (t : SkipMemtable) (e : Entry) : (node t e).height ≤ maxHeight :=
  (min_le_left _ _).trans (heightFor_bounds t.nextNode).2

theorem Linked.publish (hv : Linked t t.nodes chain) (e : Entry) :
    Linked (publish t e) (publish t e).nodes chain := by
  have hv₁ : Linked { t with nextNode := t.nextNode + 1 } t.nodes chain :=
    hv.congr rfl (fun _ _ h => h) (fun _ _ h => h) (Nat.le_succ _) le_rfl hv.top
  have hv₂ := hv₁.reserve (n := Skiplist.node t e) (Nat.lt_succ_self _) hv.nodes_nextNode rfl
    (height_node_le t e)
  refine hv₂.congr rfl (fun i n h => hv.nodes_publish e h) (fun _ _ h => h) le_rfl le_rfl ?_
  exact ⟨hv.top.1.trans (le_max_left _ _), max_le hv.top.2 (height_node_le t e)⟩

/-- **An insert that runs alone returns**, and its node joins the bottom level. -/
theorem alone_insert (hP : Keeps P) {e : Entry} (harena : t.nextNode < t.capacity)
    (hindex : t.nextNode < u32Limit - 1) (hlinks : t.nextLink < t.linkCount)
    (hv : P (publish t e) (publish t e).nodes chain) (hnot : ∀ k, t.nextNode ∉ head :: chain k) :
    ∃ n ≤ maxHeight * (t.nextNode + 4) + 8, ∃ links chain' pred,
      alone n (t, .insert e) = ({ publish t e with links := links },
          .inserted e (isNewest (publish t e) ⟨t.nextNode, node t e, 0, false⟩ pred))
        ∧ P { publish t e with links := links } (publish t e).nodes chain'
        ∧ (∀ i, i ∈ chain' 0 ↔ i = t.nextNode ∨ i ∈ chain 0)
        ∧ Bracket (publish t e) chain e.key e.seq 0 pred ((publish t e).succ 0 pred) := by
  have hpos : 0 < (node t e).height := by
    have := (heightFor_bounds t.nextNode).1
    unfold node SkipMemtable.shorten
    dsimp only
    omega
  have hself : (publish t e).nodes t.nextNode = some (node t e) := Function.update_self _ _ _
  obtain ⟨n₁, hn₁, halone₁⟩ := alone_publish e harena hindex hlinks
  obtain ⟨n₂, hn₂, found, halone₂, htight⟩ :=
    alone_search (hP.linked hv) (.link ⟨t.nextNode, node t e, 0, false⟩) Found.start
  obtain ⟨links, chain', halone₃, hv', hmem⟩ := alone_link hP hv
    (l := ⟨t.nextNode, node t e, 0, false⟩) hself hpos (fun k hk => absurd hk (Nat.not_lt_zero k))
    (fun k _ => hnot k) fun k _ hk => htight k (hk.trans_le (le_max_right _ _))
  have htight₀ := htight 0 (hpos.trans_le (le_max_right _ _))
  refine ⟨n₁ + (n₂ + 2 * ((node t e).height - 0)), ?_, links, chain', found.preds 0,
    alone_trans halone₁ (alone_trans halone₂ halone₃), hv', hmem, ?_⟩
  · have hheight := height_node_le t e
    change n₂ ≤ maxHeight * (t.nextNode + 1 + 1) + 1 at hn₂
    rw [Nat.add_assoc, Nat.mul_add] at hn₂
    rw [Nat.mul_add]
    omega
  · rw [htight₀.succ_eq]
    exact htight₀.bracket

/-- Publishing alone puts nothing on the bottom level. -/
theorem Quiet.mem_bottom_publish (hq : Quiet t chain) {e : Entry}
    (hv : Levels (publish t e) (publish t e).nodes chain) (v : Entry) :
    v ∈ (publish t e).bottom ↔ v ∈ t.bottom := by
  rw [hv.mem_bottom_iff, hq.levels.mem_bottom_iff]
  refine exists_congr fun i => and_congr_right fun hi => exists_congr fun n =>
    and_congr_left fun _ => ?_
  obtain ⟨m, hm, -⟩ := hq.levels.tall 0 i hi
  rw [hq.levels.nodes_publish e hm, hm]

theorem Quiet.levels_publish (hq : Quiet t chain) {e : Entry} (hseq : e.seq < u64Limit)
    (hfresh : ∀ v ∈ t.bottom, (v.key, v.seq) ≠ (e.key, e.seq)) :
    Levels (publish t e) (publish t e).nodes chain := by
  have hv₁ : Levels { t with nextNode := t.nextNode + 1 } t.nodes chain :=
    hq.levels.congr rfl (fun _ _ h => h) (fun _ _ h => h) (Nat.le_succ _) le_rfl hq.levels.top
  have hv₂ := hv₁.reserve (n := node t e) (Nat.lt_succ_self t.nextNode)
    hq.levels.nodes_nextNode rfl (height_node_le t e) hseq fun i m hi hne =>
      hfresh m.entry (hq.levels.mem_bottom_iff.mpr ⟨i, hq.linked i m hi hne, m, hi, rfl⟩)
  refine ⟨hq.levels.publish e, hv₂.seq, hv₂.distinct, fun l => ?_⟩
  exact (hv₂.sorted l).imp (Sorts.mono fun i n h => hq.levels.nodes_publish e h)

/-- The mutation of an insert joins the bottom level, and the insert returns `true` exactly if no
version of its key with a higher number was there. -/
theorem Quiet.alone_insert (hq : Quiet t chain) {e : Entry} (harena : t.nextNode < t.capacity)
    (hindex : t.nextNode < u32Limit - 1) (hlinks : t.nextLink < t.linkCount)
    (hseq : e.seq < u64Limit) (hfresh : ∀ v ∈ t.bottom, (v.key, v.seq) ≠ (e.key, e.seq)) :
    ∃ n ≤ maxHeight * (t.nextNode + 4) + 8, ∃ t' chain' newest,
      alone n (t, .insert e) = (t', .inserted e newest)
        ∧ (∃ links, t' = { publish t e with links := links }) ∧ Quiet t' chain'
        ∧ (∀ v, v ∈ t'.bottom ↔ v = e ∨ v ∈ t.bottom)
        ∧ (newest = true ↔ ∀ v ∈ t.bottom, v.key = e.key → ¬e.seq < v.seq) := by
  have hv := hq.levels_publish hseq hfresh
  have hself : (publish t e).nodes t.nextNode = some (node t e) := Function.update_self _ _ _
  obtain ⟨n, hn, links, chain', pred, halone, hv', hmem, hb⟩ :=
    Skiplist.alone_insert keeps_levels harena hindex hlinks hv hq.levels.nextNode_notMem
  refine ⟨n, hn, _, chain', _, halone, ⟨links, rfl⟩, ⟨hv', fun i n hi hne => ?_⟩, fun v => ?_, ?_⟩
  · rw [hmem]
    by_cases heq : i = t.nextNode
    · exact Or.inl heq
    · exact Or.inr (hq.linked i n ((Function.update_of_ne heq _ _).symm.trans hi) hne)
  · rw [hv'.mem_bottom_iff, ← hq.mem_bottom_publish hv, hv.mem_bottom_iff]
    constructor
    · rintro ⟨i, hi, n, hn, rfl⟩
      rcases (hmem i).mp hi with rfl | hi
      · obtain rfl := Option.some.inj (hself.symm.trans hn)
        exact Or.inl rfl
      · exact Or.inr ⟨i, hi, n, hn, rfl⟩
    · rintro (rfl | ⟨i, hi, n, hn, rfl⟩)
      · exact ⟨_, (hmem _).mpr (Or.inl rfl), _, hself, rfl⟩
      · exact ⟨i, (hmem i).mpr (Or.inr hi), n, hn, rfl⟩
  · rw [isNewest_iff hv hb rfl]
    exact forall_congr' fun v => by rw [hq.mem_bottom_publish hv]; rfl

/-- **A lookup that runs alone returns** the newest version of its key. -/
theorem Quiet.alone_get (hq : Quiet t chain) (key : Bytes) :
    ∃ n ≤ maxHeight * (t.nextNode + 1) + 1, alone n (t, .searching (.get key) Found.start)
      = (t, .answered key (Lookup.ofEntry (newest t.bottom key))) := by
  have hv := hq.levels
  obtain ⟨n, hn, found, halone, htight⟩ := alone_search hv.toLinked (.get key) Found.start
  have htight₀ := htight 0 (Nat.lt_of_succ_le hv.top.1)
  have hnewest : newest t.bottom key = _ := hv.newest_bottom htight₀.bracket htight₀.succ_eq
  refine ⟨n, hn, halone.trans ?_⟩
  rw [hnewest, settled]
  cases hsucc : found.succs 0 with
  | none => rfl
  | some i =>
    obtain ⟨m, hm, -⟩ := htight₀.bracket.succ_not i hsucc
    dsimp only
    rw [SkipMemtable.entry_of_nodes hm, Option.bind_some, hm, Option.bind_some]
    dsimp only
    split_ifs <;> rfl

end

end Lsmkv.Skiplist
