import Lsmkv.Skiplist.Step

/-!
# The levels of a skiplist

`Levels t plan chain` is what every atomic step keeps of the table: `plan` gives every node its
mutation and its tower from the moment the tower is reserved, and `chain` the nodes on each level.
Towers do not overlap, two nodes never hold the same version, every level is a chain in order, and
what is on a level is on the level below.  `Linked` is the part of it that does not speak of the
order, and that a table keeps whatever is inserted.

A walk that stops at a level leaves a `Bracket`: a node of the level before the target, and one not
before it.  Both stay on the level for good, so a compare-and-swap that finds the first still linked
to the second puts its node where it belongs (`Levels.swap`).
-/

namespace Lsmkv.Skiplist

variable {t t' : SkipMemtable} {plan plan' : ℕ → Option Node} {chain chain' : ℕ → List ℕ}

/-- The node at `i` comes before the one at `j` on a level; the head comes before every node. -/
def Sorts (t : SkipMemtable) (i j : ℕ) : Prop :=
  j ≠ head ∧ ∃ m, t.nodes j = some m
    ∧ (i = head ∨ ∃ n, t.nodes i = some n ∧ Precedes n.entry m.entry.key m.entry.seq)

theorem Sorts.trans {i j k : ℕ} (hij : Sorts t i j) (hjk : Sorts t j k) : Sorts t i k := by
  obtain ⟨hj, m, hm, hi⟩ := hij
  obtain ⟨hk, o, ho, hjo⟩ := hjk
  obtain ⟨m', hm', hmo⟩ := hjo.resolve_left hj
  obtain rfl := Option.some.inj (hm.symm.trans hm')
  refine ⟨hk, o, ho, hi.imp_right ?_⟩
  rintro ⟨n, hn, hnm⟩
  exact ⟨n, hn, hnm.trans hmo⟩

theorem Sorts.irrefl (i : ℕ) : ¬Sorts t i i := by
  rintro ⟨hne, m, hm, hi⟩
  obtain ⟨n, hn, hnm⟩ := hi.resolve_left hne
  obtain rfl := Option.some.inj (hn.symm.trans hm)
  exact Precedes.irrefl _ hnm

/-- Published entries never change, so an order once there stays. -/
theorem Sorts.mono (hnodes : ∀ i n, t.nodes i = some n → t'.nodes i = some n) {i j : ℕ}
    (h : Sorts t i j) : Sorts t' i j := by
  obtain ⟨hj, m, hm, hi⟩ := h
  refine ⟨hj, m, hnodes j m hm, hi.imp_right ?_⟩
  rintro ⟨n, hn, hnm⟩
  exact ⟨n, hnodes i n hn, hnm⟩

/-- What every atomic step keeps of the towers and the links. -/
structure Linked (t : SkipMemtable) (plan : ℕ → Option Node) (chain : ℕ → List ℕ) : Prop where
  sentinel : t.nodes head = some SkipMemtable.headNode
  published : ∀ i n, t.nodes i = some n → plan i = some n
  numbered : ∀ i n, plan i = some n → i < t.nextNode
  tower : ∀ i n, plan i = some n → n.tower + n.height ≤ t.nextLink ∧ n.height ≤ maxHeight
  apart : ∀ i j n m, plan i = some n → plan j = some m → i ≠ j →
    ∀ k < n.height, ∀ l < m.height, n.tower + k ≠ m.tower + l
  chained : ∀ l < maxHeight, Chain (t.succ l) head (chain l)
  nodup : ∀ l, (head :: chain l).Nodup
  tall : ∀ l, ∀ i ∈ chain l, ∃ n, t.nodes i = some n ∧ l < n.height
  nested : ∀ l, ∀ i ∈ chain (l + 1), i ∈ chain l
  top : 1 ≤ t.top ∧ t.top ≤ maxHeight

/-- What every atomic step keeps of the table. -/
structure Levels (t : SkipMemtable) (plan : ℕ → Option Node) (chain : ℕ → List ℕ) : Prop
    extends Linked t plan chain where
  seq : ∀ i n, plan i = some n → n.entry.seq < u64Limit
  distinct : ∀ i j n m, plan i = some n → plan j = some m → i ≠ j → i ≠ head →
    j ≠ head → (n.entry.key, n.entry.seq) ≠ (m.entry.key, m.entry.seq)
  sorted : ∀ l, (head :: chain l).Pairwise (Sorts t)

section

theorem Linked.ne_head (hv : Linked t plan chain) {l i : ℕ} (hi : i ∈ chain l) : i ≠ head :=
  fun heq => (List.nodup_cons.mp (hv.nodup l)).1 (heq ▸ hi)

theorem Linked.mem_bottom (hv : Linked t plan chain) {l i : ℕ} (hi : i ∈ chain l) :
    i ∈ chain 0 := by
  induction l with
  | zero => exact hi
  | succ l ih => exact ih (hv.nested l i hi)

/-- The node at any position of a level has a tower that reaches it. -/
theorem Linked.node (hv : Linked t plan chain) {l i : ℕ} (hl : l < maxHeight)
    (hi : i ∈ head :: chain l) : ∃ n, t.nodes i = some n ∧ l < n.height := by
  rcases List.mem_cons.mp hi with rfl | hi
  · exact ⟨_, hv.sentinel, hl⟩
  · exact hv.tall l i hi

/-- The level splits at each of its nodes, and goes on behind it. -/
theorem Linked.split_chain (hv : Linked t plan chain) {l i : ℕ} (hl : l < maxHeight)
    (hi : i ∈ head :: chain l) :
    ∃ front rest, head :: chain l = front ++ i :: rest ∧ Chain (t.succ l) i rest
      ∧ ∀ j ∈ rest, j ∈ chain l := by
  obtain ⟨front, rest, hsplit, hrest⟩ := (hv.chained l hl).split hi
  refine ⟨front, rest, hsplit, hrest, fun j hj => ?_⟩
  -- what is behind a node is behind the head
  cases front with
  | nil =>
    rw [(List.cons.inj hsplit).2]
    exact hj
  | cons a front =>
    rw [(List.cons.inj hsplit).2]
    exact List.mem_append_right _ (List.mem_cons_of_mem _ hj)

/-- The link of a node leads to what follows it on the level. -/
theorem Linked.split (hv : Linked t plan chain) {l i : ℕ} (hl : l < maxHeight)
    (hi : i ∈ head :: chain l) :
    ∃ front rest, head :: chain l = front ++ i :: rest ∧ t.succ l i = rest.head?
      ∧ ∀ j ∈ rest, j ∈ chain l := by
  obtain ⟨front, rest, hsplit, hrest, hmem⟩ := hv.split_chain hl hi
  exact ⟨front, rest, hsplit, hrest.next_eq, hmem⟩

theorem Linked.length_le (hv : Linked t plan chain) (l : ℕ) : (chain l).length ≤ t.nextNode := by
  have hsub : chain l ⊆ List.range t.nextNode := fun i hi => by
    obtain ⟨n, hn, -⟩ := hv.tall l i hi
    exact List.mem_range.mpr (hv.numbered i n (hv.published i n hn))
  have := ((List.nodup_cons.mp (hv.nodup l)).2.subperm hsub).length_le
  rwa [List.length_range] at this

/-- The computed level is the chain. -/
theorem Linked.level_eq (hv : Linked t plan chain) {l : ℕ} (hl : l < maxHeight) :
    t.level l = chain l := (hv.chained l hl).follow_eq (hv.length_le l)

/-! ### A fresh table -/

theorem levels_withCapacity (budget capacity : ℕ) :
    Levels (.withCapacity budget capacity)
      (fun i => if i = head then some SkipMemtable.headNode else none) (fun _ => []) where
  sentinel := rfl
  published := fun _ _ h => h
  numbered i n h := by
    split_ifs at h with hi
    rw [hi]
    exact Nat.one_pos
  tower i n h := by
    split_ifs at h
    obtain rfl := Option.some.inj h
    exact ⟨Nat.le_of_eq (Nat.zero_add _), le_rfl⟩
  seq i n h := by
    split_ifs at h
    obtain rfl := Option.some.inj h
    exact Nat.two_pow_pos 64
  apart i j n m hi hj hne := by
    split_ifs at hi hj with hi' hj'
    exact absurd (hi'.trans hj'.symm) hne
  distinct i j n m hi hj hne hi' := by
    split_ifs at hi with hhead
    exact absurd hhead hi'
  chained l hl := by
    exact SkipMemtable.succ_of_nodes (n := SkipMemtable.headNode) rfl hl
  nodup l := List.nodup_singleton _
  sorted l := List.pairwise_singleton _ _
  tall l i hi := nomatch hi
  nested l i hi := nomatch hi
  top := ⟨le_rfl, show 1 ≤ maxHeight by decide⟩

/-! ### Steps that touch no link -/

/-- Counters move on, and entries are published as planned. -/
theorem Linked.congr (hv : Linked t plan chain) (hlinks : t'.links = t.links)
    (hnodes : ∀ i n, t.nodes i = some n → t'.nodes i = some n)
    (hpublished : ∀ i n, t'.nodes i = some n → plan i = some n)
    (hnode : t.nextNode ≤ t'.nextNode) (hlink : t.nextLink ≤ t'.nextLink)
    (htop : 1 ≤ t'.top ∧ t'.top ≤ maxHeight) : Linked t' plan chain where
  sentinel := hnodes _ _ hv.sentinel
  published := hpublished
  numbered i n h := (hv.numbered i n h).trans_le hnode
  tower i n h := ⟨(hv.tower i n h).1.trans hlink, (hv.tower i n h).2⟩
  apart := hv.apart
  chained l hl := (hv.chained l hl).congr fun i hi => by
    obtain ⟨n, hn, hheight⟩ := hv.node hl hi
    rw [SkipMemtable.succ_of_nodes hn hheight, SkipMemtable.succ_of_nodes (hnodes i n hn) hheight,
      hlinks]
  nodup := hv.nodup
  tall l i hi := by
    obtain ⟨n, hn, hheight⟩ := hv.tall l i hi
    exact ⟨n, hnodes i n hn, hheight⟩
  nested := hv.nested
  top := htop

theorem Levels.congr (hv : Levels t plan chain) (hlinks : t'.links = t.links)
    (hnodes : ∀ i n, t.nodes i = some n → t'.nodes i = some n)
    (hpublished : ∀ i n, t'.nodes i = some n → plan i = some n)
    (hnode : t.nextNode ≤ t'.nextNode) (hlink : t.nextLink ≤ t'.nextLink)
    (htop : 1 ≤ t'.top ∧ t'.top ≤ maxHeight) : Levels t' plan chain where
  toLinked := hv.toLinked.congr hlinks hnodes hpublished hnode hlink htop
  seq := hv.seq
  distinct := hv.distinct
  sorted l := (hv.sorted l).imp (Sorts.mono hnodes)

/-- What is planned once a node has its tower. -/
theorem update_plan_cases {index i : ℕ} {n m : Node}
    (h : Function.update plan index (some n) i = some m) :
    i = index ∧ m = n ∨ i ≠ index ∧ plan i = some m := by
  by_cases heq : i = index
  · rw [heq, Function.update_self] at h
    exact Or.inl ⟨heq, (Option.some.inj h).symm⟩
  · rw [Function.update_of_ne heq] at h
    exact Or.inr ⟨heq, h⟩

/-- A tower is reserved for a node that has its number and nothing else yet. -/
theorem Linked.reserve (hv : Linked t plan chain) {index : ℕ} {n : Node}
    (hindex : index < t.nextNode) (hplan : plan index = none) (htower : n.tower = t.nextLink)
    (hheight : n.height ≤ maxHeight) :
    Linked { t with nextLink := n.tower + n.height } (Function.update plan index (some n))
      chain := by
  have hold : ∀ i m, plan i = some m → Function.update plan index (some n) i = some m := by
    intro i m hi
    rw [Function.update_of_ne, hi]
    rintro rfl
    rw [hi] at hplan
    cases hplan
  refine { hv with
    published := fun i m hi => hold i m (hv.published i m hi), numbered := fun i m hi => ?_
    tower := fun i m hi => ?_, apart := fun i j m o hi hj hne => ?_, chained := hv.chained }
  · rcases update_plan_cases hi with ⟨rfl, -⟩ | ⟨-, hi⟩
    · exact hindex
    · exact hv.numbered i m hi
  · rcases update_plan_cases hi with ⟨-, rfl⟩ | ⟨-, hi⟩
    · exact ⟨le_rfl, hheight⟩
    · have := hv.tower i m hi
      refine ⟨?_, this.2⟩
      dsimp only
      omega
  · -- every tower reserved before ends where the new one starts
    intro k hk l hl
    rcases update_plan_cases hi with ⟨rfl, rfl⟩ | ⟨-, hi₁⟩
    · rcases update_plan_cases hj with ⟨rfl, -⟩ | ⟨-, hj₁⟩
      · exact absurd rfl hne
      · have := (hv.tower j o hj₁).1
        omega
    · rcases update_plan_cases hj with ⟨rfl, rfl⟩ | ⟨-, hj₁⟩
      · have := (hv.tower i m hi₁).1
        omega
      · exact hv.apart i j m o hi₁ hj₁ hne k hk l hl

theorem Levels.reserve (hv : Levels t plan chain) {index : ℕ} {n : Node}
    (hindex : index < t.nextNode) (hplan : plan index = none) (htower : n.tower = t.nextLink)
    (hheight : n.height ≤ maxHeight) (hseq : n.entry.seq < u64Limit)
    (hpair : ∀ i m, plan i = some m → i ≠ head → (m.entry.key, m.entry.seq)
      ≠ (n.entry.key, n.entry.seq)) :
    Levels { t with nextLink := n.tower + n.height } (Function.update plan index (some n))
      chain := by
  refine ⟨hv.toLinked.reserve hindex hplan htower hheight, fun i m hi => ?_,
    fun i j m o hi hj hne hi' hj' => ?_, hv.sorted⟩
  · rcases update_plan_cases hi with ⟨-, rfl⟩ | ⟨-, hi⟩
    · exact hseq
    · exact hv.seq i m hi
  · rcases update_plan_cases hi with ⟨rfl, rfl⟩ | ⟨-, hi₁⟩
    · rcases update_plan_cases hj with ⟨rfl, -⟩ | ⟨-, hj₁⟩
      · exact absurd rfl hne
      · exact (hpair j o hj₁ hj').symm
    · rcases update_plan_cases hj with ⟨rfl, rfl⟩ | ⟨-, hj₁⟩
      · exact hpair i m hi₁ hi'
      · exact hv.distinct i j m o hi₁ hj₁ hne hi' hj'

/-! ### Stores and compare-and-swaps -/

theorem succ_setLink {i l slot : ℕ} {n : Node} {value : Option ℕ} (hn : t.nodes i = some n)
    (hl : l < n.height) : (t.setLink slot value).succ l i
      = if n.tower + l = slot then value else t.succ l i := by
  rw [SkipMemtable.succ_of_nodes hn hl, SkipMemtable.succ_of_nodes
    (t := t.setLink slot value) hn hl]
  exact Function.update_apply _ _ _ _

/-- Two positions of the levels have the same slot only if they are the same. -/
theorem Linked.slot_inj (hv : Linked t plan chain) {i j k l : ℕ} {n m : Node}
    (hi : plan i = some n) (hj : plan j = some m) (hk : k < n.height) (hl : l < m.height)
    (heq : n.tower + k = m.tower + l) : i = j ∧ k = l := by
  have hij : i = j := not_not.mp fun hne => hv.apart i j n m hi hj hne k hk l hl heq
  subst hij
  obtain rfl := Option.some.inj (hi.symm.trans hj)
  exact ⟨rfl, Nat.add_left_cancel heq⟩

/-- A store into a tower that the level does not lead to yet changes nothing there. -/
theorem Linked.store (hv : Linked t plan chain) {index l : ℕ} {n : Node}
    (hplan : plan index = some n) (hl : l < n.height) (hnot : index ∉ head :: chain l)
    (value : Option ℕ) : Linked (t.setLink (n.tower + l) value) plan chain := by
  refine { hv with chained := fun k hk => (hv.chained k hk).congr fun i hi => ?_ }
  obtain ⟨m, hm, hheight⟩ := hv.node hk hi
  rw [succ_setLink hm hheight, if_neg]
  intro heq
  obtain ⟨rfl, rfl⟩ := hv.slot_inj (hv.published i m hm) hplan hheight hl heq
  exact hnot hi

theorem Levels.store (hv : Levels t plan chain) {index l : ℕ} {n : Node}
    (hplan : plan index = some n) (hl : l < n.height) (hnot : index ∉ head :: chain l)
    (value : Option ℕ) : Levels (t.setLink (n.tower + l) value) plan chain :=
  ⟨hv.toLinked.store hplan hl hnot value, hv.seq, hv.distinct, hv.sorted⟩

/-- What a walk for `(key, seq)` leaves at a level. -/
structure Bracket (t : SkipMemtable) (chain : ℕ → List ℕ) (key : Bytes) (seq l pred : ℕ)
    (succ : Option ℕ) : Prop where
  pred_mem : pred ∈ head :: chain l
  pred_lt : pred = head ∨ ∃ n, t.nodes pred = some n ∧ Precedes n.entry key seq
  succ_mem : ∀ i ∈ succ, i ∈ chain l
  succ_not : ∀ i ∈ succ, ∃ n, t.nodes i = some n ∧ ¬Precedes n.entry key seq

theorem Bracket.mono {key : Bytes} {seq l pred : ℕ} {succ : Option ℕ}
    (hb : Bracket t chain key seq l pred succ)
    (hnodes : ∀ i n, t.nodes i = some n → t'.nodes i = some n)
    (hchain : ∀ i ∈ chain l, i ∈ chain' l) : Bracket t' chain' key seq l pred succ where
  pred_mem := by
    rcases List.mem_cons.mp hb.pred_mem with rfl | hmem
    · exact List.mem_cons_self
    · exact List.mem_cons_of_mem _ (hchain pred hmem)
  pred_lt := hb.pred_lt.imp_right fun ⟨n, hn, hlt⟩ => ⟨n, hnodes pred n hn, hlt⟩
  succ_mem i hi := hchain i (hb.succ_mem i hi)
  succ_not i hi := by
    obtain ⟨n, hn, hnot⟩ := hb.succ_not i hi
    exact ⟨n, hnodes i n hn, hnot⟩

/-- The node of a compare-and-swap gets between the predecessor and what followed it. -/
theorem Linked.swap (hv : Linked t plan chain) {index l pred : ℕ} {n m : Node} {succ : Option ℕ}
    (hnode : t.nodes index = some n) (hl : l < n.height) (hnot : index ∉ head :: chain l)
    (hbelow : ∀ k < l, index ∈ chain k) (hmem : pred ∈ head :: chain l)
    (hm : t.nodes pred = some m) (hheight : l < m.height) (hpred : t.links (m.tower + l) = succ)
    (hown : t.links (n.tower + l) = succ) :
    ∃ front rest new, head :: chain l = front ++ pred :: rest ∧ succ = rest.head?
      ∧ head :: new = front ++ pred :: index :: rest ∧ (∀ i, i ∈ new ↔ i = index ∨ i ∈ chain l)
      ∧ Linked (t.setLink (m.tower + l) (some index)) plan (Function.update chain l new) := by
  have hmax : l < maxHeight := hl.trans_le (hv.tower _ _ (hv.published _ _ hnode)).2
  obtain ⟨front, rest, hsplit, hrest, -⟩ := hv.split hmax hmem
  rw [SkipMemtable.succ_of_nodes hm hheight, hpred] at hrest
  have hindex : index ≠ head := fun heq => hnot (heq ▸ List.mem_cons_self)
  -- only the link of the predecessor at this level moves
  have hmoved : ∀ k i, ∀ o, t.nodes i = some o → k < o.height → (i = pred → k ≠ l) →
      (t.setLink (m.tower + l) (some index)).succ k i = t.succ k i := by
    intro k i o ho hk hne
    rw [succ_setLink ho hk, if_neg]
    intro heq
    obtain ⟨rfl, rfl⟩ := hv.slot_inj (hv.published i o ho) (hv.published pred m hm) hk hheight heq
    exact hne rfl rfl
  have hne : index ≠ pred := fun heq => hnot (heq ▸ hmem)
  obtain ⟨new, hchain, hnew⟩ := (hv.chained l hmax).splice hsplit (hv.nodup l)
    (show (t.setLink (m.tower + l) (some index)).succ l pred = some index by
      rw [succ_setLink hm hheight, if_pos rfl])
    (by rw [hmoved l index n hnode hl fun heq => absurd heq hne,
      SkipMemtable.succ_of_nodes hnode hl, hown, hrest])
    (fun y hy hyp => by
      obtain ⟨o, ho, hk⟩ := hv.node hmax hy
      exact hmoved l y o ho hk fun heq => absurd heq hyp)
  have hperm : (head :: new).Perm (index :: head :: chain l) := by
    rw [hnew, hsplit, List.append_cons front pred (index :: rest), List.append_cons front pred rest]
    exact List.perm_middle
  have hnodup : (head :: new).Nodup :=
    hperm.nodup_iff.mpr (List.nodup_cons.mpr ⟨hnot, hv.nodup l⟩)
  have hmem : ∀ i, i ∈ new ↔ i = index ∨ i ∈ chain l :=
    fun i => (List.perm_cons head |>.mp (hperm.trans (List.Perm.swap head index _))).mem_iff.trans
      List.mem_cons
  refine ⟨front, rest, new, hsplit, hrest, hnew, hmem, { hv with
    chained := fun k hk => ?_, nodup := fun k => ?_, tall := fun k i hi => ?_
    nested := fun k i hi => ?_ }⟩
  · by_cases hkl : k = l
    · subst hkl
      rw [Function.update_self]
      exact hchain
    · rw [Function.update_of_ne hkl]
      refine (hv.chained k hk).congr fun i hi => ?_
      obtain ⟨o, ho, hheight⟩ := hv.node hk hi
      exact hmoved k i o ho hheight fun _ => hkl
  · by_cases hkl : k = l
    · rw [hkl, Function.update_self]
      exact hnodup
    · rw [Function.update_of_ne hkl]
      exact hv.nodup k
  · by_cases hkl : k = l
    · subst hkl
      rw [Function.update_self, hmem] at hi
      rcases hi with rfl | hi
      · exact ⟨n, hnode, hl⟩
      · exact hv.tall k i hi
    · rw [Function.update_of_ne hkl] at hi
      exact hv.tall k i hi
  · -- the node is on every level below, and what was on a level stays there
    have hup : i ∈ chain (k + 1) ∨ i = index ∧ k + 1 = l := by
      by_cases hkl : k + 1 = l
      · rw [hkl, Function.update_self, hmem] at hi
        rcases hi with rfl | hi
        · exact Or.inr ⟨rfl, hkl⟩
        · exact Or.inl (hkl ▸ hi)
      · rw [Function.update_of_ne hkl] at hi
        exact Or.inl hi
    have hdown : i ∈ chain k := by
      rcases hup with hi | ⟨rfl, hkl⟩
      · exact hv.nested k i hi
      · exact hbelow k (by omega)
    by_cases hkl : k = l
    · subst hkl
      rw [Function.update_self, hmem]
      exact Or.inr hdown
    · rwa [Function.update_of_ne hkl]

/-- **The compare-and-swap.**  The predecessor a walk found, perhaps long ago, is still linked to
the successor the walk found, and so is the new node: swapping the link puts the node between
them. -/
theorem Levels.swap (hv : Levels t plan chain) {index l pred : ℕ} {n m : Node} {succ : Option ℕ}
    (hnode : t.nodes index = some n) (hl : l < n.height) (hnot : index ∉ head :: chain l)
    (hbelow : ∀ k < l, index ∈ chain k)
    (hb : Bracket t chain n.entry.key n.entry.seq l pred succ)
    (hm : t.nodes pred = some m) (hheight : l < m.height) (hpred : t.links (m.tower + l) = succ)
    (hown : t.links (n.tower + l) = succ) :
    ∃ new, (∀ i, i ∈ new ↔ i = index ∨ i ∈ chain l)
      ∧ Levels (t.setLink (m.tower + l) (some index)) plan (Function.update chain l new) := by
  obtain ⟨front, rest, new, hsplit, hrest, hnew, hmem, hlinked⟩ :=
    hv.toLinked.swap hnode hl hnot hbelow hb.pred_mem hm hheight hpred hown
  have hindex : index ≠ head := fun heq => hnot (heq ▸ List.mem_cons_self)
  -- the new node belongs between the two
  have hafter : Sorts t pred index := ⟨hindex, n, hnode, hb.pred_lt⟩
  have hbefore : ∀ y ∈ rest.head?, Sorts t index y := by
    rw [← hrest]
    intro y hy
    obtain ⟨o, ho, hlt⟩ := hb.succ_not y hy
    have hy' := hb.succ_mem y hy
    refine ⟨hv.ne_head hy', o, ho, Or.inr ⟨n, hnode, precedes_of_not hlt ?_⟩⟩
    refine hv.distinct y index o n (hv.published y o ho) (hv.published _ _ hnode) ?_
      (hv.ne_head hy') hindex
    rintro rfl
    exact hnot (List.mem_cons_of_mem _ hy')
  have hsorted := hv.sorted l
  rw [hsplit] at hsorted
  have hsorted' := pairwise_splice (R := Sorts t) (fun h h' => h.trans h') hsorted hafter hbefore
  refine ⟨new, hmem, hlinked, hv.seq, hv.distinct, fun k => ?_⟩
  by_cases hkl : k = l
  · rw [hkl, Function.update_self, hnew]
    exact hsorted'
  · rw [Function.update_of_ne hkl]
    exact hv.sorted k

end

end Lsmkv.Skiplist
