import Lsmkv.Skiplist.Levels

/-!
# What the threads in a skiplist rely on

`Pc.Ok` says of each point of `insert` and `get` what the thread standing there knows.  Everything
it knows about nodes of others is for good: published entries do not change, and no node leaves a
level.  What is not for good concerns its own node: that the tower is its own, that the levels it
has yet to link do not lead to the node, and what it has just stored.

`Frame` is what the step of one thread leaves to the others; `Pc.Ok.frame` is the one place where
that is used.
-/

namespace Lsmkv.Skiplist

/-- The key and number of a mutation. -/
def pair (e : Entry) : Bytes × ℕ := (e.key, e.seq)

/-- What the proof keeps track of: the towers and the levels, and which thread an index and a pair
of key and number belong to. -/
structure Ghost where
  plan : ℕ → Option Node
  chain : ℕ → List ℕ
  owner : ℕ → ℕ
  caller : Bytes × ℕ → ℕ

section

variable (t : SkipMemtable) (g : Ghost) (called : List (Bytes × ℕ)) (u : ℕ)

/-- The thread has called `insert` and its node has no tower yet. -/
structure Unplanned (e : Entry) : Prop where
  seq : e.seq < u64Limit
  mem_called : pair e ∈ called
  caller : g.caller (pair e) = u
  unused : ∀ i n, g.plan i = some n → i ≠ head → pair n.entry ≠ pair e

/-- The thread has taken an index. -/
structure Numbered (index : ℕ) : Prop where
  lt : index < t.nextNode
  plan : g.plan index = none
  owner : g.owner index = u

/-- The thread has a tower for its node. -/
structure Owns (index : ℕ) (node : Node) : Prop where
  plan : g.plan index = some node
  owner : g.owner index = u
  ne_head : index ≠ head
  height : 0 < node.height

/-- The thread has published its node and linked it on the levels below `l.level`. -/
structure Linking.Ok (l : Linking) : Prop where
  owns : Owns g u l.index l.node
  node : t.nodes l.index = some l.node
  level : l.level < l.node.height
  below : ∀ k < l.level, l.index ∈ g.chain k
  not_mem : l.index ∉ g.chain l.level

/-- What a walk relies on. -/
def Goal.Ok : Goal → Prop
  | .link l => l.Ok t g u
  | .get _ => True

/-- What a walk found at a level. -/
def Goal.Bracket (goal : Goal) (found : Found) (k : ℕ) : Prop :=
  Skiplist.Bracket t g.chain goal.key goal.seq k (found.preds k) (found.succs k)

/-- What a thread at this point knows. -/
def Pc.Ok : Pc → Prop
  | idle => True
  | insert e => Unplanned g called u e
  | numbered index e => Unplanned g called u e ∧ Numbered t g u index
  | reserving index e start =>
    Unplanned g called u e ∧ Numbered t g u index ∧ t.shorten (heightFor index) start ≠ 0
  | towered index node => Owns g u index node ∧ t.nodes index = none
  | counted index node => Owns g u index node ∧ t.nodes index = none
  | published index node => (Linking.mk index node 0 false).Ok t g u
  | raising index node _ => (Linking.mk index node 0 false).Ok t g u
  | searching goal _ => goal.Ok t g u
  | walking goal level node found =>
    goal.Ok t g u ∧ level < maxHeight ∧ node ∈ head :: g.chain level
      ∧ (node = head ∨ ∃ n, t.nodes node = some n ∧ Precedes n.entry goal.key goal.seq)
      ∧ ∀ k, level < k → goal.Bracket t g found k
  | linking l found => l.Ok t g u ∧ ∀ k, (Goal.link l).Bracket t g found k
  | stored l found =>
    l.Ok t g u ∧ (∀ k, (Goal.link l).Bracket t g found k)
      ∧ t.links (l.node.tower + l.level) = found.succs l.level
  | inserted _ _ => True
  | answered _ _ => True
  | panicked panic => panic ≠ .unpublished ∧ panic ≠ .tower

end

/-- What the step of a thread `u` leaves to the others. -/
structure Frame (u : ℕ) (t : SkipMemtable) (g : Ghost) (called : List (Bytes × ℕ))
    (t' : SkipMemtable) (g' : Ghost) (called' : List (Bytes × ℕ)) : Prop where
  capacity : t'.capacity = t.capacity
  nextNode : t.nextNode ≤ t'.nextNode
  nodes : ∀ i n, t.nodes i = some n → t'.nodes i = some n
  hidden : ∀ i, g.owner i ≠ u → t.nodes i = none → t'.nodes i = none
  plan : ∀ i n, g.plan i = some n → g'.plan i = some n
  unplanned : ∀ i, g.owner i ≠ u → g.plan i = none → i < t.nextNode → g'.plan i = none
  planned : ∀ i n, g'.plan i = some n → g.plan i = some n ∨ g.caller (pair n.entry) = u
  owner : ∀ i < t.nextNode, g'.owner i = g.owner i
  calls : ∀ p ∈ called, p ∈ called'
  caller : ∀ p ∈ called, g'.caller p = g.caller p
  chain : ∀ l, ∀ i ∈ g.chain l, i ∈ g'.chain l
  fresh : ∀ l, ∀ i ∈ g'.chain l, i ∈ g.chain l ∨ g.owner i = u
  links : ∀ i n k, g.plan i = some n → k < n.height → g.owner i ≠ u → i ∉ head :: g.chain k →
    t'.links (n.tower + k) = t.links (n.tower + k)

section

variable {t t' : SkipMemtable} {g g' : Ghost} {called called' : List (Bytes × ℕ)} {u v : ℕ}

theorem Frame.refl (u : ℕ) (t : SkipMemtable) (g : Ghost) (called : List (Bytes × ℕ)) :
    Frame u t g called t g called where
  capacity := rfl
  nextNode := le_rfl
  nodes := fun _ _ h => h
  hidden := fun _ _ h => h
  plan := fun _ _ h => h
  unplanned := fun _ _ h _ => h
  planned := fun _ _ h => Or.inl h
  owner := fun _ _ => rfl
  calls := fun _ h => h
  caller := fun _ _ => rfl
  chain := fun _ _ h => h
  fresh := fun _ _ h => Or.inl h
  links := fun _ _ _ _ _ _ _ => rfl

theorem Unplanned.frame {e : Entry} (h : Unplanned g called v e)
    (hf : Frame u t g called t' g' called') (hne : v ≠ u) : Unplanned g' called' v e where
  seq := h.seq
  mem_called := hf.calls _ h.mem_called
  caller := (hf.caller _ h.mem_called).trans h.caller
  unused i n hi hhead heq := by
    rcases hf.planned i n hi with hold | hcaller
    · exact h.unused i n hold hhead heq
    · -- a node planned in this step is of another caller
      rw [heq, h.caller] at hcaller
      exact hne hcaller

theorem Numbered.frame {index : ℕ} (h : Numbered t g v index)
    (hf : Frame u t g called t' g' called') (hne : v ≠ u) : Numbered t' g' v index where
  lt := h.lt.trans_le hf.nextNode
  plan := hf.unplanned index (by rw [h.owner]; exact hne) h.plan h.lt
  owner := (hf.owner index h.lt).trans h.owner

theorem Owns.frame {index : ℕ} {node : Node} (h : Owns g v index node)
    (hf : Frame u t g called t' g' called') (hlt : index < t.nextNode) : Owns g' v index node where
  plan := hf.plan index node h.plan
  owner := (hf.owner index hlt).trans h.owner
  ne_head := h.ne_head
  height := h.height

theorem Linking.Ok.frame {l : Linking} (h : l.Ok t g v) (hf : Frame u t g called t' g' called')
    (hv : Levels t g.plan g.chain) (hne : v ≠ u) : l.Ok t' g' v where
  owns := h.owns.frame hf (hv.numbered _ _ h.owns.plan)
  node := hf.nodes _ _ h.node
  level := h.level
  below k hk := hf.chain k _ (h.below k hk)
  not_mem hmem := by
    rcases hf.fresh _ _ hmem with hold | howner
    · exact h.not_mem hold
    · exact hne (h.owns.owner.symm.trans howner)

theorem Goal.Ok.frame {goal : Goal} (h : goal.Ok t g v) (hf : Frame u t g called t' g' called')
    (hv : Levels t g.plan g.chain) (hne : v ≠ u) : goal.Ok t' g' v := by
  cases goal with
  | link l => exact Linking.Ok.frame h hf hv hne
  | get key => trivial

theorem Goal.Bracket.frame {goal : Goal} {found : Found} {k : ℕ} (h : goal.Bracket t g found k)
    (hf : Frame u t g called t' g' called') : goal.Bracket t' g' found k :=
  Skiplist.Bracket.mono h hf.nodes (hf.chain k)

theorem Linking.Ok.not_mem_cons {l : Linking} (h : l.Ok t g v) :
    l.index ∉ head :: g.chain l.level := by
  rw [List.mem_cons, not_or]
  exact ⟨h.owns.ne_head, h.not_mem⟩

/-- **No thread loses what it relies on to the step of another.** -/
theorem Pc.Ok.frame {pc : Pc} (h : pc.Ok t g called v) (hf : Frame u t g called t' g' called')
    (hv : Levels t g.plan g.chain) (hne : v ≠ u) : pc.Ok t' g' called' v := by
  cases pc with
  | idle | inserted | answered => trivial
  | insert e => exact Unplanned.frame h hf hne
  | numbered index e => exact ⟨h.1.frame hf hne, h.2.frame hf hne⟩
  | reserving index e start =>
    refine ⟨h.1.frame hf hne, h.2.1.frame hf hne, ?_⟩
    rw [SkipMemtable.shorten, SkipMemtable.linkCount, hf.capacity]
    exact h.2.2
  | towered index node | counted index node =>
    refine ⟨h.1.frame hf (hv.numbered _ _ h.1.plan), hf.hidden index ?_ h.2⟩
    rw [h.1.owner]
    exact hne
  | published index node => exact Linking.Ok.frame h hf hv hne
  | raising index node top => exact Linking.Ok.frame h hf hv hne
  | searching goal found => exact Goal.Ok.frame h hf hv hne
  | walking goal level node found =>
    obtain ⟨hgoal, hlevel, hnode, hlt, hfound⟩ := h
    refine ⟨hgoal.frame hf hv hne, hlevel, ?_, hlt.imp_right ?_, fun k hk => (hfound k hk).frame hf⟩
    · exact List.cons_subset_cons _ (hf.chain level) hnode
    · rintro ⟨n, hn, hn'⟩
      exact ⟨n, hf.nodes _ n hn, hn'⟩
  | linking l found => exact ⟨h.1.frame hf hv hne, fun k => (h.2 k).frame hf⟩
  | stored l found =>
    obtain ⟨hl, hfound, hstored⟩ := h
    refine ⟨hl.frame hf hv hne, fun k => (hfound k).frame hf, ?_⟩
    rw [hf.links _ _ _ hl.owns.plan hl.level (by rw [hl.owns.owner]; exact hne) hl.not_mem_cons]
    exact hstored
  | panicked panic => exact h

end

end Lsmkv.Skiplist
