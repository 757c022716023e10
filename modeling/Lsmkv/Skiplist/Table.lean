import Lsmkv.Lib.Chain
import Lsmkv.Memtable

/-!
# The arena of the skiplist (`memtable/skiplist.rs`)

`SkipMemtable` keeps every version written.  A node is an index into an arena, and its tower a run
of slots in an array of links; a link holds the index of the next node of its level, or nothing
(`NIL`).  Nodes are ordered by key, and the versions of a key newest first.

The functions here are those that touch the arena once: `next` and `order`, which read it,
`shorten`, the part of `reserve_tower` between its reads, and the accounting of `approx_bytes`.
What the source panics on is a `Panic`; reading a link outside a node's own tower, which it only
checks in debug builds, is one as well.

The indices are numbers here and `u32` in the source, where `u32::MAX` is `NIL`.  The conversion of
an index to `u32` fails here for `u32::MAX` too.
-/

namespace Lsmkv

namespace Skiplist

/-- `MAX_HEIGHT`. -/
def maxHeight : ℕ := 12

/-- `BRANCHING_SHIFT`. -/
def branchingShift : ℕ := 2

/-- `HEAD`, the sentinel in front of every level. -/
def head : ℕ := 0

/-- `ASSUMED_ENTRY_BYTES`. -/
def assumedEntryBytes : ℕ := 96

/-- `LINKS_PER_NODE`. -/
def linksPerNode : ℕ := 4

/-- `MARGIN`. -/
def margin : ℕ := 1024

/-- The mixer of splitmix64. -/
def mix (value : ℕ) : ℕ :=
  let z := (value + 0x9E3779B97F4A7C15) % u64Limit
  let z := (z ^^^ (z >>> 30)) * 0xBF58476D1CE4E5B9 % u64Limit
  let z := (z ^^^ (z >>> 27)) * 0x94D049BB133111EB % u64Limit
  z ^^^ (z >>> 31)

/-- How many of at most `left` levels these bits add: one for each pair of zeros at the end. -/
def climb : ℕ → ℕ → ℕ
  | 0, _ => 0
  | left + 1, bits =>
    if bits % 2 ^ branchingShift = 0 then climb left (bits >>> branchingShift) + 1 else 0

/-- Tower height for the node at `index`. -/
def heightFor (index : ℕ) : ℕ := 1 + climb (maxHeight - 1) (mix index)

theorem climb_le (left bits : ℕ) : climb left bits ≤ left := by
  induction left generalizing bits with
  | zero => exact le_rfl
  | succ left ih =>
    rw [climb]
    split_ifs
    · exact Nat.succ_le_succ (ih _)
    · exact Nat.zero_le _

theorem heightFor_bounds (index : ℕ) : 1 ≤ heightFor index ∧ heightFor index ≤ maxHeight := by
  have := climb_le (maxHeight - 1) (mix index)
  unfold heightFor
  unfold maxHeight at *
  omega

/-- Why a thread stops. -/
inductive Panic where
  /-- The index is not below `nodes.len()`. -/
  | arena
  /-- The index does not fit. -/
  | index
  /-- There is no link left for a tower. -/
  | links
  /-- The entry of a node is read before it is published. -/
  | unpublished
  /-- A link is read outside the tower of its node. -/
  | tower
  deriving DecidableEq, Repr

/-- A published node: its mutation, where its tower starts and how many levels it has. -/
structure Node where
  entry : Entry
  tower : ℕ
  height : ℕ
  deriving DecidableEq, Repr

/-- `v` stands before every version of `key` numbered `seq` or less. -/
def Precedes (v : Entry) (key : Bytes) (seq : ℕ) : Prop := v.key < key ∨ v.key = key ∧ seq < v.seq

/-- How a node sorts against `(key, seq)`: by key ascending, then by sequence number descending. -/
def order (n : Node) (key : Bytes) (seq : ℕ) : Ordering :=
  if n.entry.key < key then .lt else if key < n.entry.key then .gt else compare seq n.entry.seq

theorem order_eq_lt_iff {n : Node} {key : Bytes} {seq : ℕ} :
    order n key seq = .lt ↔ Precedes n.entry key seq := by
  unfold order Precedes
  split_ifs with hlt hgt
  · simp [hlt]
  · simp [hlt, hgt.ne']
  · have heq : n.entry.key = key := le_antisymm (not_lt.mp hgt) (not_lt.mp hlt)
    simp [heq, compare_lt_iff_lt]

theorem Precedes.irrefl (v : Entry) : ¬Precedes v v.key v.seq := by
  rintro (h | ⟨-, h⟩)
  · exact lt_irrefl _ h
  · exact lt_irrefl _ h

theorem Precedes.trans {u v : Entry} {key : Bytes} {seq : ℕ} (huv : Precedes u v.key v.seq)
    (hv : Precedes v key seq) : Precedes u key seq := by
  rcases huv with huv | ⟨huv, huv'⟩ <;> rcases hv with hv | ⟨hv, hv'⟩
  · exact Or.inl (huv.trans hv)
  · exact Or.inl (hv ▸ huv)
  · exact Or.inl (huv ▸ hv)
  · exact Or.inr ⟨huv.trans hv, hv'.trans huv'⟩

/-- Of two versions with different keys or numbers one precedes the other. -/
theorem precedes_of_not {u v : Entry} (h : ¬Precedes u v.key v.seq)
    (hne : (u.key, u.seq) ≠ (v.key, v.seq)) : Precedes v u.key u.seq := by
  unfold Precedes at *
  rw [not_or, not_lt, not_and, not_lt] at h
  rcases h.1.lt_or_eq with hlt | heq
  · exact Or.inl hlt
  · have hle := h.2 heq.symm
    refine Or.inr ⟨heq, lt_of_le_of_ne hle fun hseq => hne ?_⟩
    rw [heq, hseq]

end Skiplist

open Skiplist

/-- A sorted table of every version written, newest first within a key. -/
structure SkipMemtable where
  /-- `nodes.len()`. -/
  capacity : ℕ
  /-- The published entries. -/
  nodes : ℕ → Option Node
  links : ℕ → Option ℕ
  nextNode : ℕ
  nextLink : ℕ
  /-- Levels any node has reached. -/
  top : ℕ
  /-- Key and value bytes. -/
  bytes : ℕ
  budget : ℕ
  /-- Node count at which `approx_bytes` starts reporting the full budget. -/
  pressureAt : ℕ

namespace SkipMemtable

/-- The node of the head, whose key is never compared against anything. -/
def headNode : Node := ⟨⟨[], 0, none⟩, 0, maxHeight⟩

/-- The arena sized directly. -/
def withCapacity (budget capacity : ℕ) : SkipMemtable where
  capacity := capacity
  nodes := fun index => if index = head then some headNode else none
  links := fun _ => none
  nextNode := 1
  nextLink := maxHeight
  top := 1
  bytes := 0
  budget := budget
  pressureAt := max (capacity - margin) 1

/-- An empty table for a store that freezes its tables at `budget` bytes. -/
def new (budget : ℕ) : SkipMemtable :=
  withCapacity budget (budget / assumedEntryBytes + margin + 1)

/-- `links.len()`. -/
def linkCount (t : SkipMemtable) : ℕ := t.capacity * linksPerNode

/-- The published entry of a node. -/
def entry (t : SkipMemtable) (index : ℕ) : Except Panic Node :=
  match t.nodes index with
  | none => .error .unpublished
  | some n => .ok n

/-- The slot of a node's own tower for a level. -/
def slot (t : SkipMemtable) (index level : ℕ) : Except Panic ℕ := do
  let n ← t.entry index
  if level < n.height then .ok (n.tower + level) else .error .tower

/-- The link of a node at a level. -/
def next (t : SkipMemtable) (index level : ℕ) : Except Panic (Option ℕ) :=
  (t.slot index level).map t.links

/-- The successor of a node at a level. -/
def succ (t : SkipMemtable) (level index : ℕ) : Option ℕ := (t.next index level).toOption.join

/-- Writes a link. -/
def setLink (t : SkipMemtable) (slot : ℕ) (value : Option ℕ) : SkipMemtable :=
  { t with links := Function.update t.links slot value }

/-- The height left for a tower that starts at `start`. -/
def shorten (t : SkipMemtable) (height start : ℕ) : ℕ := min height (t.linkCount - start)

/-- The nodes of a level, in the order the links lead to them. -/
def level (t : SkipMemtable) (level : ℕ) : List ℕ := follow (t.succ level) t.nextNode head

/-- The mutations on the bottom level. -/
def bottom (t : SkipMemtable) : List Entry :=
  (t.level 0).filterMap fun index => (t.nodes index).map Node.entry

/-- What `approx_bytes` reports when it read these counters. -/
def reported (t : SkipMemtable) (bytes nodes : ℕ) : ℕ :=
  if nodes < t.pressureAt then bytes else max bytes t.budget

/-- `approx_bytes`. -/
def approxBytes (t : SkipMemtable) : ℕ := t.reported t.bytes t.nextNode

section

variable {t : SkipMemtable} {index level slot : ℕ} {n : Node}

theorem entry_of_nodes (h : t.nodes index = some n) : t.entry index = .ok n := by rw [entry, h]

theorem entry_eq_error {panic : Panic} (h : t.entry index = .error panic) :
    panic = .unpublished := by
  unfold entry at h
  split at h
  · exact (Except.error.inj h).symm
  · cases h

/-- Reading a slot fails for two reasons. -/
theorem slot_eq_error {panic : Panic} (h : t.slot index level = .error panic) :
    panic = .unpublished ∨ panic = .tower := by
  rw [SkipMemtable.slot] at h
  cases hentry : t.entry index with
  | error panic' =>
    rw [hentry] at h
    obtain rfl := Except.error.inj h
    exact Or.inl (entry_eq_error hentry)
  | ok n =>
    rw [hentry] at h
    change (if level < n.height then _ else _) = _ at h
    split_ifs at h
    exact Or.inr (Except.error.inj h).symm

theorem next_eq_error {panic : Panic} (h : t.next index level = .error panic) :
    panic = .unpublished ∨ panic = .tower := by
  rw [next] at h
  cases hslot : t.slot index level with
  | error panic' =>
    rw [hslot] at h
    obtain rfl := Except.error.inj h
    exact slot_eq_error hslot
  | ok slot =>
    rw [hslot] at h
    cases h

theorem slot_of_nodes (h : t.nodes index = some n) (hlevel : level < n.height) :
    t.slot index level = .ok (n.tower + level) := by
  rw [SkipMemtable.slot, entry_of_nodes h]
  exact if_pos hlevel

theorem next_of_nodes (h : t.nodes index = some n) (hlevel : level < n.height) :
    t.next index level = .ok (t.links (n.tower + level)) := by
  rw [next, slot_of_nodes h hlevel]
  rfl

theorem succ_of_nodes (h : t.nodes index = some n) (hlevel : level < n.height) :
    t.succ level index = t.links (n.tower + level) := by
  rw [succ, next_of_nodes h hlevel]
  rfl

end

end SkipMemtable

end Lsmkv
