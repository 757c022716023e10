import Lsmkv.Lib.Transition
import Lsmkv.Skiplist.Table

/-!
# Threads in a skiplist

Any number of threads call `insert` and `get` on one table.  `Pc` lists the points of the two
functions right before each of their atomic steps, and `Pc.step` takes one of them: a load or a
compare-and-swap of `next_link` or `top`, a `fetch_add`, the publication of an entry, a load, a
store or a compare-and-swap of a link.  Comparing keys happens between two such steps and belongs
to the earlier one, since a published entry never changes.  A weak compare-and-swap may fail for no
reason (`Event.spurious`).

`Machine` is a table with its threads and what the specification speaks about, which no branch
reads: the nodes whose bottom compare-and-swap succeeded, the pairs of key and number of the inserts
called, what was on the bottom level at every moment of a running `get`, and what was there when the
node of an insert was linked.
-/

namespace Lsmkv.Skiplist

/-- What a walk has found: at every level the last node before the target and the first one not
before it. -/
structure Found where
  preds : ℕ → ℕ
  succs : ℕ → Option ℕ

/-- The outcome of a level. -/
def Found.set (f : Found) (level pred : ℕ) (succ : Option ℕ) : Found :=
  ⟨Function.update f.preds level pred, Function.update f.succs level succ⟩

/-- The levels from `top` on are known to be empty. -/
def Found.fill (f : Found) (top : ℕ) : Found :=
  ⟨fun level => if top ≤ level then head else f.preds level,
    fun level => if top ≤ level then none else f.succs level⟩

/-- What an insert or a lookup starts with. -/
def Found.start : Found := ⟨fun _ => head, fun _ => none⟩

/-- An insert that has published its node: the level it links next, and whether the node was the
newest version of its key when it was linked. -/
structure Linking where
  index : ℕ
  node : Node
  level : ℕ
  newest : Bool

/-- What a walk is for. -/
inductive Goal where
  | link (l : Linking)
  | get (key : Bytes)

/-- What the walk compares nodes with. -/
def Goal.key : Goal → Bytes
  | link l => l.node.entry.key
  | get key => key

/-- A lookup wants to be ahead of every version of its key. -/
def Goal.seq : Goal → ℕ
  | link l => l.node.entry.seq
  | get _ => u64Limit - 1

/-- Where a thread stands, right before one of its atomic steps. -/
inductive Pc where
  /-- Outside the table. -/
  | idle
  /-- `next_node.fetch_add`. -/
  | insert (e : Entry)
  /-- `reserve_tower`: the load of `next_link`. -/
  | numbered (index : ℕ) (e : Entry)
  /-- `reserve_tower`: the compare-and-swap of `next_link`. -/
  | reserving (index : ℕ) (e : Entry) (start : ℕ)
  /-- `bytes.fetch_add`. -/
  | towered (index : ℕ) (node : Node)
  /-- The publication of the entry. -/
  | counted (index : ℕ) (node : Node)
  /-- `raise_top`: the load of `top`. -/
  | published (index : ℕ) (node : Node)
  /-- `raise_top`: the compare-and-swap of `top`. -/
  | raising (index : ℕ) (node : Node) (top : ℕ)
  /-- `descend`: the load of `top`. -/
  | searching (goal : Goal) (found : Found)
  /-- `descend`: the load of the link of a node. -/
  | walking (goal : Goal) (level node : ℕ) (found : Found)
  /-- The store into the node's own tower. -/
  | linking (l : Linking) (found : Found)
  /-- The compare-and-swap of the link of the predecessor. -/
  | stored (l : Linking) (found : Found)
  /-- `insert` returned. -/
  | inserted (e : Entry) (newest : Bool)
  /-- `get` returned. -/
  | answered (key : Bytes) (lookup : Lookup)
  | panicked (panic : Panic)

/-- What a thread does next. -/
inductive Event where
  | insert (e : Entry)
  | get (key : Bytes)
  | step
  /-- A weak compare-and-swap fails although the value is the expected one. -/
  | spurious
  /-- The caller takes the result. -/
  | finish
  deriving DecidableEq, Repr

/-- The key and number of the insert an event calls. -/
def Event.calls : Event → List (Bytes × ℕ)
  | insert e => [(e.key, e.seq)]
  | _ => []

/-- The end of a walk. -/
def settled (t : SkipMemtable) (goal : Goal) (found : Found) : Pc :=
  match goal with
  | .link l => .linking l found
  | .get key =>
    match found.succs 0 with
    | none => .answered key .missing
    | some candidate =>
      match t.entry candidate with
      | .error panic => .panicked panic
      | .ok n =>
        if n.entry.key ≠ key then .answered key .missing
        else .answered key (Lookup.ofEntry (some n.entry))

/-- One level down, or the end of the walk. -/
def descended (t : SkipMemtable) (goal : Goal) (level node : ℕ) (found : Found) : Pc :=
  match level with
  | 0 => settled t goal found
  | level + 1 => .walking goal level node found

/-- One turn of the walk: the link that was read is followed, or the level is done. -/
def walked (t : SkipMemtable) (goal : Goal) (level node : ℕ) (found : Found)
    (next : Option ℕ) : Pc :=
  match next with
  | none => descended t goal level node (found.set level node none)
  | some i =>
    match t.entry i with
    | .error panic => .panicked panic
    | .ok n =>
      if order n goal.key goal.seq = .lt then .walking goal level i found
      else descended t goal level node (found.set level node (some i))

/-- A tower is reserved, if the links that are left allow one. -/
def reserve (t : SkipMemtable) (index : ℕ) (e : Entry) (start : ℕ) : Pc :=
  if t.shorten (heightFor index) start = 0 then .panicked .links else .reserving index e start

/-- `raise_top` has read this height. -/
def raise (index : ℕ) (node : Node) (top : ℕ) : Pc :=
  if top < node.height then .raising index node top
  else .searching (.link ⟨index, node, 0, false⟩) Found.start

/-- The node is linked at its level: the next one follows, or the insert returns. -/
def Linking.linked (l : Linking) (newest : Bool) (found : Found) : Pc :=
  if l.level + 1 < l.node.height then .linking
    { l with level := l.level + 1, newest := newest } found
  else .inserted l.node.entry newest

/-- Whether a node linked behind `pred` is the newest version of its key. -/
def isNewest (t : SkipMemtable) (l : Linking) (pred : ℕ) : Bool :=
  match t.nodes pred with
  | none => true
  | some n => pred = head || n.entry.key ≠ l.node.entry.key

/-- Whether the compare-and-swap of a thread at this point will succeed in linking its node. -/
def Linking.swaps (l : Linking) (t : SkipMemtable) (found : Found) : Bool :=
  match t.next (found.preds l.level) l.level with
  | .error _ => false
  | .ok next => next = found.succs l.level

/-- One atomic step of a thread. -/
def Pc.step (t : SkipMemtable) : Pc → Event → Option (SkipMemtable × Pc)
  | idle, .insert e => if e.seq < u64Limit then some (t, .insert e) else none
  | idle, .get key => some (t, .searching (.get key) Found.start)
  | insert e, .step =>
    let index := t.nextNode
    let t := { t with nextNode := index + 1 }
    if t.capacity ≤ index then some (t, .panicked .arena)
    else if u32Limit - 1 ≤ index then some (t, .panicked .index)
    else some (t, .numbered index e)
  | numbered index e, .step => some (t, reserve t index e t.nextLink)
  | reserving index e start, .step =>
    if t.nextLink = start then
      let height := t.shorten (heightFor index) start
      some ({ t with nextLink := start + height }, .towered index ⟨e, start, height⟩)
    else some (t, reserve t index e t.nextLink)
  | reserving index e _, .spurious => some (t, reserve t index e t.nextLink)
  | towered index node, .step =>
    some ({ t with bytes := t.bytes + entryBytes node.entry }, .counted index node)
  | counted index node, .step =>
    some ({ t with nodes := Function.update t.nodes index (some node) }, .published index node)
  | published index node, .step => some (t, raise index node t.top)
  | raising index node top, .step =>
    if t.top = top then
      some ({ t with top := node.height }, .searching (.link ⟨index, node, 0, false⟩) Found.start)
    else some (t, raise index node t.top)
  | raising index node _, .spurious => some (t, raise index node t.top)
  | searching goal found, .step =>
    match t.top with
    | 0 => some (t, settled t goal (found.fill 0))
    | top + 1 => some (t, .walking goal top head (found.fill (top + 1)))
  | walking goal level node found, .step =>
    match t.next node level with
    | .error panic => some (t, .panicked panic)
    | .ok next => some (t, walked t goal level node found next)
  | linking l found, .step =>
    some (t.setLink (l.node.tower + l.level) (found.succs l.level), .stored l found)
  | stored l found, .step =>
    let pred := found.preds l.level
    match t.slot pred l.level with
    | .error panic => some (t, .panicked panic)
    | .ok slot =>
      if t.links slot = found.succs l.level then
        let newest := if l.level = 0 then isNewest t l pred else l.newest
        some (t.setLink slot (some l.index), l.linked newest found)
      else some (t, .searching (.link l) found)
  | inserted _ _, .finish => some (t, .idle)
  | answered _ _, .finish => some (t, .idle)
  | _, _ => none

/-- The outcomes of the steps of a thread. -/
inductive Pc.Moves (t : SkipMemtable) : Pc → Event → SkipMemtable → Pc → Prop
  | call {e : Entry} (hseq : e.seq < u64Limit) : Moves t .idle (.insert e) t (.insert e)
  | look {key : Bytes} : Moves t .idle (.get key) t (.searching (.get key) Found.start)
  | exhaust {e : Entry} (harena : t.capacity ≤ t.nextNode) :
      Moves t (.insert e) .step { t with nextNode := t.nextNode + 1 } (.panicked .arena)
  | overflow {e : Entry} (harena : t.nextNode < t.capacity) :
      Moves t (.insert e) .step { t with nextNode := t.nextNode + 1 } (.panicked .index)
  | number {e : Entry} (harena : t.nextNode < t.capacity) :
      Moves t (.insert e) .step { t with nextNode := t.nextNode + 1 } (.numbered t.nextNode e)
  | load {index : ℕ} {e : Entry} :
      Moves t (.numbered index e) .step t (reserve t index e t.nextLink)
  | reload {index start : ℕ} {e : Entry} {event : Event} (hcalls : event.calls = []) :
      Moves t (.reserving index e start) event t (reserve t index e t.nextLink)
  | take {index : ℕ} {e : Entry} :
      Moves t (.reserving index e t.nextLink) .step
        { t with nextLink := t.nextLink + t.shorten (heightFor index) t.nextLink }
        (.towered index ⟨e, t.nextLink, t.shorten (heightFor index) t.nextLink⟩)
  | count {index : ℕ} {node : Node} :
      Moves t (.towered index node) .step { t with bytes := t.bytes + entryBytes node.entry }
        (.counted index node)
  | publish {index : ℕ} {node : Node} :
      Moves t (.counted index node) .step
        { t with nodes := Function.update t.nodes index (some node) } (.published index node)
  | loadTop {index : ℕ} {node : Node} :
      Moves t (.published index node) .step t (raise index node t.top)
  | reloadTop {index top : ℕ} {node : Node} {event : Event} (hcalls : event.calls = []) :
      Moves t (.raising index node top) event t (raise index node t.top)
  | raiseTop {index : ℕ} {node : Node} :
      Moves t (.raising index node t.top) .step { t with top := node.height }
        (.searching (.link ⟨index, node, 0, false⟩) Found.start)
  | search {goal : Goal} {found : Found} {top : ℕ} (htop : t.top = top + 1) :
      Moves t (.searching goal found) .step t (.walking goal top head (found.fill (top + 1)))
  | searchNothing {goal : Goal} {found : Found} (htop : t.top = 0) :
      Moves t (.searching goal found) .step t (settled t goal (found.fill 0))
  | walk {goal : Goal} {level node : ℕ} {found : Found} {next : Option ℕ}
      (hnext : t.next node level = .ok next) :
      Moves t (.walking goal level node found) .step t (walked t goal level node found next)
  | walkPanic {goal : Goal} {level node : ℕ} {found : Found} {panic : Panic}
      (hnext : t.next node level = .error panic) :
      Moves t (.walking goal level node found) .step t (.panicked panic)
  | store {l : Linking} {found : Found} :
      Moves t (.linking l found) .step
        (t.setLink (l.node.tower + l.level) (found.succs l.level)) (.stored l found)
  | swap {l : Linking} {found : Found} {slot : ℕ}
      (hslot : t.slot (found.preds l.level) l.level = .ok slot)
      (hsame : t.links slot = found.succs l.level) :
      Moves t (.stored l found) .step (t.setLink slot (some l.index))
        (l.linked (if l.level = 0 then isNewest t l (found.preds l.level) else l.newest) found)
  | swapFail {l : Linking} {found : Found} {slot : ℕ}
      (hslot : t.slot (found.preds l.level) l.level = .ok slot)
      (hmoved : t.links slot ≠ found.succs l.level) :
      Moves t (.stored l found) .step t (.searching (.link l) found)
  | swapPanic {l : Linking} {found : Found} {panic : Panic}
      (hslot : t.slot (found.preds l.level) l.level = .error panic) :
      Moves t (.stored l found) .step t (.panicked panic)
  | finishInsert {e : Entry} {newest : Bool} : Moves t (.inserted e newest) .finish t .idle
  | finishGet {key : Bytes} {lookup : Lookup} : Moves t (.answered key lookup) .finish t .idle

/-- **Every step is one of the moves.** -/
theorem Pc.moves_of_step {t t' : SkipMemtable} {pc pc' : Pc} {event : Event}
    (h : pc.step t event = some (t', pc')) : pc.Moves t event t' pc' := by
  unfold Pc.step at h
  split at h
  · split_ifs at h with hseq
    cases h
    exact .call hseq
  · cases h
    exact .look
  · dsimp only at h
    split_ifs at h with harena hfits
    · cases h
      exact .exhaust harena
    · cases h
      exact .overflow (not_le.mp harena)
    · cases h
      exact .number (not_le.mp harena)
  · cases h
    exact .load
  · split_ifs at h with hstart
    · subst hstart
      cases h
      exact .take
    · cases h
      exact .reload rfl
  · cases h
    exact .reload rfl
  · cases h
    exact .count
  · cases h
    exact .publish
  · cases h
    exact .loadTop
  · split_ifs at h with htop
    · subst htop
      cases h
      exact .raiseTop
    · cases h
      exact .reloadTop rfl
  · cases h
    exact .reloadTop rfl
  · split at h <;> rename_i htop
    · cases h
      exact .searchNothing htop
    · cases h
      exact .search htop
  · split at h <;> rename_i hnext
    · cases h
      exact .walkPanic hnext
    · cases h
      exact .walk hnext
  · cases h
    exact .store
  · dsimp only at h
    split at h <;> rename_i hslot
    · cases h
      exact .swapPanic hslot
    · split_ifs at h with hsame hlevel
      · cases h
        have := Pc.Moves.swap hslot hsame
        rwa [if_pos hlevel] at this
      · cases h
        have := Pc.Moves.swap hslot hsame
        rwa [if_neg hlevel] at this
      · cases h
        exact .swapFail hslot hsame
  · cases h
    exact .finishInsert
  · cases h
    exact .finishGet
  · cases h

/-- How a walk can end. -/
theorem settled_cases (t : SkipMemtable) (goal : Goal) (found : Found) :
    (∃ l, goal = .link l ∧ settled t goal found = .linking l found)
      ∨ ∃ key, goal = .get key ∧ ((∃ lookup, settled t goal found = .answered key lookup)
        ∨ settled t goal found = .panicked .unpublished) := by
  cases goal with
  | link l => exact Or.inl ⟨l, rfl, rfl⟩
  | get key =>
    refine Or.inr ⟨key, rfl, ?_⟩
    unfold settled
    cases found.succs 0 with
    | none => exact Or.inl ⟨_, rfl⟩
    | some candidate =>
      dsimp only
      cases hentry : t.entry candidate with
      | error panic =>
        obtain rfl := SkipMemtable.entry_eq_error hentry
        exact Or.inr rfl
      | ok n =>
        dsimp only
        split_ifs
        · exact Or.inl ⟨_, rfl⟩
        · exact Or.inl ⟨_, rfl⟩

/-- Where a turn of the walk leaves the thread. -/
theorem walked_cases (t : SkipMemtable) (goal : Goal) (level node : ℕ) (found : Found)
    (next : Option ℕ) :
    (∃ level' node' found', walked t goal level node found next
        = .walking goal level' node' found')
      ∨ (∃ found', walked t goal level node found next = settled t goal found')
      ∨ walked t goal level node found next = .panicked .unpublished := by
  have hdescended : ∀ found, (∃ level' node' found', descended t goal level node found
      = .walking goal level' node' found') ∨ ∃ found', descended t goal level node found
        = settled t goal found' := by
    intro found
    cases level with
    | zero => exact Or.inr ⟨found, rfl⟩
    | succ level => exact Or.inl ⟨level, node, found, rfl⟩
  unfold walked
  cases next with
  | none => exact (hdescended _).imp_right Or.inl
  | some i =>
    dsimp only
    cases hentry : t.entry i with
    | error panic =>
      obtain rfl := SkipMemtable.entry_eq_error hentry
      exact Or.inr (Or.inr rfl)
    | ok n =>
      dsimp only
      split_ifs
      · exact Or.inl ⟨level, i, found, rfl⟩
      · exact (hdescended _).imp_right Or.inl

/-- Whether a `get` is running. -/
def Pc.isGetting : Pc → Bool
  | searching (.get _) _ => true
  | walking (.get _) _ _ _ => true
  | _ => false

/-- The node that a thread at this point links to the bottom level in its next step. -/
def Pc.linksBottom (t : SkipMemtable) : Pc → Option ℕ
  | stored l found => if l.level = 0 ∧ l.swaps t found then some l.index else none
  | _ => none

/-- A table with its threads. -/
structure Machine where
  table : SkipMemtable
  thread : ℕ → Pc
  /-- The nodes whose bottom compare-and-swap succeeded. -/
  linked : List ℕ
  /-- The key and number of every insert called. -/
  called : List (Bytes × ℕ)
  /-- The bottom level at every moment of the `get` a thread is in, or was in last. -/
  since : ℕ → List (List Entry)
  /-- The bottom level right before the node of a thread's last insert was linked. -/
  linkedTo : ℕ → List Entry

namespace Machine

/-- No thread has called anything yet. -/
def initial (table : SkipMemtable) : Machine where
  table := table
  thread := fun _ => .idle
  linked := []
  called := []
  since := fun _ => []
  linkedTo := fun _ => []

/-- One step of one thread. -/
def step (m : Machine) (label : ℕ × Event) : Option Machine :=
  let pc := m.thread label.1
  (pc.step m.table label.2).map fun (table, pc') => {
    table := table
    thread := Function.update m.thread label.1 pc'
    linked := m.linked ++ (pc.linksBottom m.table).toList
    called := label.2.calls ++ m.called
    since := fun u =>
      if (m.thread u).isGetting then m.since u ++ [table.bottom]
      else if u = label.1 ∧ pc'.isGetting then [table.bottom]
      else m.since u
    linkedTo := if (pc.linksBottom m.table).isSome
      then Function.update m.linkedTo label.1 m.table.bottom else m.linkedTo }

/-- Whether an insert brings a pair of key and number that no other insert has brought. -/
def Fresh (m : Machine) (label : ℕ × Event) : Prop := ∀ p ∈ label.2.calls, p ∉ m.called

instance (m : Machine) (label : ℕ × Event) : Decidable (m.Fresh label) :=
  inferInstanceAs (Decidable (∀ p ∈ label.2.calls, p ∉ m.called))

end Machine

end Lsmkv.Skiplist
