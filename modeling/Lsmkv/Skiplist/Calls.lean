import Lsmkv.Skiplist.Alone

/-!
# The table of one thread

The functions of `impl Memtable for SkipMemtable`, called one after another: `insert` and `get` are
runs of a thread that nobody disturbs, and `len`, `is_empty` and `for_each` walk the bottom level.

Whether an `insert` panics depends on how many came before it and on nothing else, since the height
of a tower is a function of the index of its node.  `stops` is the assertion that fails after so
many inserts, and `Counted.insert_eq` and `Counted.insert_of_stops` say that it is the outcome,
whatever the mutations are.  `Filled t es` describes the table the inserts of `es` leave if their
numbers are distinct.
-/

namespace Lsmkv

open Skiplist

namespace SkipMemtable

/-- A call, which may panic; the call of a thread that is not done yet has no outcome. -/
abbrev Call := ExceptT Panic Option

theorem map_eq_throw_iff {α β : Type} {f : α → β} {call : Call α} {panic : Panic} :
    f <$> call = throw panic ↔ call = throw panic := by
  rcases call with _ | _ | _
  · exact ⟨fun h => (nomatch h), fun h => (nomatch h)⟩
  · refine ⟨fun h => ?_, fun h => ?_⟩
    · exact Except.error.inj (Option.some.inj h) ▸ rfl
    · exact Except.error.inj (Option.some.inj h) ▸ rfl
  · exact ⟨fun h => (nomatch h), fun h => (nomatch h)⟩

/-- More steps than a call takes alone. -/
def fuel (t : SkipMemtable) : ℕ := maxHeight * (t.nextNode + 4) + 8

/-- `insert`: the table afterwards, and whether the mutation was the newest of its key. -/
def insert (t : SkipMemtable) (e : Entry) : Call (SkipMemtable × Bool) :=
  match alone t.fuel (t, .insert e) with
  | (t', .inserted _ newest) => pure (t', newest)
  | (_, .panicked panic) => throw panic
  | _ => ExceptT.mk none

/-- `get`. -/
def get (t : SkipMemtable) (key : Bytes) : Call Lookup :=
  match alone t.fuel (t, .searching (.get key) Found.start) with
  | (_, .answered _ lookup) => pure lookup
  | (_, .panicked panic) => throw panic
  | _ => ExceptT.mk none

/-- Inserts records one after another, as a replay does, which asks for no verdict. -/
def replay (t : SkipMemtable) (records : List Entry) : Call SkipMemtable :=
  records.foldlM (fun t e => Prod.fst <$> t.insert e) t

theorem replay_append (t : SkipMemtable) (records records' : List Entry) :
    t.replay (records ++ records') = t.replay records >>= fun t => t.replay records' :=
  List.foldlM_append

/-- Inserts one after another. -/
def insertAll (t : SkipMemtable) : List Entry → Call (SkipMemtable × List Bool)
  | [] => pure (t, [])
  | e :: es => do
    let (t, newest) ← t.insert e
    let (t, verdicts) ← t.insertAll es
    pure (t, newest :: verdicts)

/-- The loop of `for_each`: an entry with the key of the one before it is passed over. -/
def visitNewest {σ ε : Type*} (visit : σ → Entry → Except ε σ) :
    Option Bytes → List Entry → σ → Except ε σ
  | _, [], s => .ok s
  | previous, e :: rest, s =>
    if previous ≠ some e.key then do
      let s ← visit s e
      visitNewest visit (some e.key) rest s
    else visitNewest visit previous rest s

/-- `for_each`, with a callback that works on a state and may fail. -/
def forEach {σ ε : Type*} (t : SkipMemtable) (visit : σ → Entry → Except ε σ)
    (s : σ) : Except ε σ :=
  visitNewest visit none t.bottom s

/-- The loop of `len`. -/
def countKeys : Option Bytes → List Entry → ℕ
  | _, [] => 0
  | previous, e :: rest =>
    if previous ≠ some e.key then countKeys (some e.key) rest + 1 else countKeys previous rest

/-- `len`. -/
def len (t : SkipMemtable) : ℕ := countKeys none t.bottom

/-- `is_empty`. -/
def isEmpty (t : SkipMemtable) : Bool := (t.succ 0 head).isNone

end SkipMemtable

namespace Skiplist

/-! ### The arena -/

/-- The links in use after so many inserts, if the arena has them all. -/
def linksUsed : ℕ → ℕ
  | 0 => maxHeight
  | n + 1 => linksUsed n + heightFor (n + 1)

/-- What the insert after `n` others panics with. -/
def stops (capacity n : ℕ) : Option Panic :=
  if capacity ≤ n + 1 then some .arena
  else if u32Limit - 1 ≤ n + 1 then some .index
  else if capacity * linksPerNode ≤ linksUsed n then some .links
  else none

/-- An arena that has room for `n` inserts. -/
def EnoughArena (capacity n : ℕ) : Prop := ∀ k < n, stops capacity k = none

instance (capacity n : ℕ) : Decidable (EnoughArena capacity n) :=
  inferInstanceAs (Decidable (∀ k < n, stops capacity k = none))

theorem stops_eq_none_iff {capacity n : ℕ} : stops capacity n = none
    ↔ n + 1 < capacity ∧ n + 1 < u32Limit - 1 ∧ linksUsed n < capacity * linksPerNode := by
  unfold stops
  split_ifs with harena hindex hlinks
  · simp [harena.not_gt]
  · simp [hindex.not_gt]
  · simp [hlinks.not_gt]
  · simp [not_le.mp harena, not_le.mp hindex, not_le.mp hlinks]

theorem linksUsed_le (n : ℕ) : linksUsed n ≤ maxHeight * (n + 1) := by
  induction n with
  | zero => exact le_rfl
  | succ n ih =>
    rw [linksUsed, Nat.mul_succ]
    exact Nat.add_le_add ih (heightFor_bounds _).2

theorem linksUsed_mono {m n : ℕ} (h : m ≤ n) : linksUsed m ≤ linksUsed n :=
  monotone_nat_of_le_succ (fun n => Nat.le_add_right (linksUsed n) _) h

theorem enoughArena_of_links {capacity n : ℕ} (hcapacity : n < capacity)
    (hindex : n < u32Limit - 1) (hlinks : linksUsed n < capacity * linksPerNode) :
    EnoughArena capacity n := by
  intro k hk
  rw [stops_eq_none_iff]
  exact ⟨Nat.lt_of_le_of_lt hk hcapacity, Nat.lt_of_le_of_lt hk hindex,
    (linksUsed_mono hk.le).trans_lt hlinks⟩

/-- There is always an arena large enough, since no tower has more than twelve levels. -/
theorem enoughArena_of_lt {capacity n : ℕ} (hcapacity : 3 * n < capacity)
    (hindex : n < u32Limit - 1) : EnoughArena capacity n := by
  intro k hk
  rw [stops_eq_none_iff]
  refine ⟨by omega, by omega, ?_⟩
  have := linksUsed_le k
  unfold maxHeight at this
  unfold linksPerNode
  omega

/-- A tower takes its height of links, or those that are left. -/
theorem add_shorten {t : SkipMemtable} {height start : ℕ} (h : start < t.linkCount) :
    start + t.shorten height start = min (start + height) t.linkCount := by
  unfold SkipMemtable.shorten
  omega

/-! ### What a sequence of inserts leaves -/

/-- The table after `n` inserts. -/
structure Counted (t : SkipMemtable) (n : ℕ) : Prop where
  linked : ∃ chain, Linked t t.nodes chain
  nextNode_eq : t.nextNode = n + 1
  nextLink_eq : linksUsed n < t.linkCount → t.nextLink = linksUsed n
  le_nextLink : t.linkCount ≤ linksUsed n → t.linkCount ≤ t.nextLink

/-- The table after the inserts of `es`. -/
structure Filled (t : SkipMemtable) (es : List Entry) : Prop extends Counted t es.length where
  quiet : ∃ chain, Quiet t chain
  mem_bottom : ∀ v, v ∈ t.bottom ↔ v ∈ es

theorem filled_withCapacity (budget capacity : ℕ) : Filled (.withCapacity budget capacity) [] where
  linked := ⟨_, (levels_withCapacity budget capacity).toLinked⟩
  quiet := ⟨_, quiet_withCapacity budget capacity⟩
  mem_bottom v := by
    rw [(quiet_withCapacity budget capacity).levels.bottom_eq]
    rfl
  nextNode_eq := rfl
  nextLink_eq _ := rfl
  le_nextLink h := h

section

variable {t : SkipMemtable} {es : List Entry} {e : Entry} {n : ℕ}

/-- The node of an insert that finds room takes the next number and what is left of the links. -/
theorem Counted.publish (hc : Counted t n) (hroom : stops t.capacity n = none) (e : Entry)
    {links : ℕ → Option ℕ} (h : ∃ chain, Linked { publish t e with links := links }
      { publish t e with links := links }.nodes chain) :
    Counted { publish t e with links := links } (n + 1) := by
  obtain ⟨-, -, hlinks⟩ := stops_eq_none_iff.mp hroom
  have hused : (Skiplist.publish t e).nextLink = min (linksUsed (n + 1)) t.linkCount := by
    change t.nextLink + t.shorten (heightFor t.nextNode) t.nextLink = _
    rw [hc.nextLink_eq hlinks, hc.nextNode_eq, add_shorten hlinks, linksUsed]
  refine ⟨h, congrArg (· + 1) hc.nextNode_eq, fun hlt => ?_, fun hle => ?_⟩
  · exact hused.trans (min_eq_left hlt.le)
  · exact (hused.trans (min_eq_right hle)).ge

/-- The assertions of an insert that finds room hold. -/
theorem Counted.room (hc : Counted t n) (hroom : stops t.capacity n = none) :
    t.nextNode < t.capacity ∧ t.nextNode < u32Limit - 1 ∧ t.nextLink < t.linkCount := by
  obtain ⟨harena, hindex, hlinks⟩ := stops_eq_none_iff.mp hroom
  rw [hc.nextNode_eq, hc.nextLink_eq hlinks]
  exact ⟨harena, hindex, hlinks⟩

theorem insert_of_alone {t' : SkipMemtable} {e' : Entry} {newest : Bool} {k : ℕ}
    (h : alone k (t, .insert e) = (t', .inserted e' newest)) (hk : k ≤ t.fuel) :
    t.insert e = pure (t', newest) := by
  rw [SkipMemtable.insert, alone_of_le h rfl hk]

/-- **An insert that finds room** returns. -/
theorem Counted.insert_eq (hc : Counted t n) (hroom : stops t.capacity n = none) (e : Entry) :
    ∃ t' newest, t.insert e = pure (t', newest) ∧ Counted t' (n + 1)
      ∧ t'.capacity = t.capacity := by
  obtain ⟨chain, hv⟩ := hc.linked
  obtain ⟨harena, hindex, hlinks⟩ := hc.room hroom
  obtain ⟨k, hk, links, chain', pred, halone, hv', -⟩ :=
    alone_insert keeps_linked harena hindex hlinks (hv.publish e) hv.nextNode_notMem
  exact ⟨_, _, insert_of_alone halone hk, hc.publish hroom e ⟨chain', hv'⟩, rfl⟩

/-- **An insert that finds no room** panics with the assertion that fails. -/
theorem Counted.insert_of_stops (hc : Counted t n) {panic : Panic}
    (hstops : stops t.capacity n = some panic) (e : Entry) : t.insert e = throw panic := by
  have hnext := hc.nextNode_eq
  suffices h : ∃ k ≤ t.fuel, ∃ t', alone k (t, .insert e) = (t', .panicked panic) by
    obtain ⟨k, hk, t', halone⟩ := h
    rw [SkipMemtable.insert, alone_of_le halone rfl hk]
  let t₁ : SkipMemtable := { t with nextNode := t.nextNode + 1 }
  unfold stops at hstops
  rw [← hnext] at hstops
  split_ifs at hstops with harena hindex hlinks <;> obtain rfl := Option.some.inj hstops
  · refine ⟨1, by unfold SkipMemtable.fuel; omega, t₁, alone_one ?_⟩
    simp only [Pc.step, harena, if_true]
    rfl
  · refine ⟨1, by unfold SkipMemtable.fuel; omega, t₁, alone_one ?_⟩
    simp only [Pc.step, harena, hindex, if_true, if_false]
    rfl
  · have hshort : t₁.shorten (heightFor t.nextNode) t.nextLink = 0 := by
      have := hc.le_nextLink hlinks
      change min _ (t.linkCount - t.nextLink) = 0
      omega
    have hnumber : alone 1 (t, .insert e) = (t₁, .numbered t.nextNode e) := by
      refine alone_one ?_
      simp only [Pc.step, harena, hindex, if_false]
      rfl
    exact ⟨1 + 1, by unfold SkipMemtable.fuel; omega, t₁, alone_trans hnumber
      (alone_one (congrArg (fun pc => some (t₁, pc)) (if_pos hshort)))⟩

/-- **A replay that finds room** for every record returns. -/
theorem Counted.replay_eq (hc : Counted t n) {records : List Entry}
    (hroom : ∀ k < records.length, stops t.capacity (n + k) = none) :
    ∃ t', t.replay records = pure t' := by
  induction records generalizing t n with
  | nil => exact ⟨t, rfl⟩
  | cons e records ih =>
    obtain ⟨t₁, newest, hinsert, hc₁, hcapacity⟩ := hc.insert_eq (hroom 0 (Nat.succ_pos _)) e
    obtain ⟨t', hreplay⟩ := ih hc₁ fun k hk => by
      rw [hcapacity, Nat.add_assoc, Nat.add_comm 1]
      exact hroom (k + 1) (Nat.succ_lt_succ hk)
    refine ⟨t', ?_⟩
    rw [SkipMemtable.replay, List.foldlM_cons, hinsert, map_pure, pure_bind]
    exact hreplay

/-- **A replay that finds no room** for a record panics there. -/
theorem Counted.replay_of_stops (hc : Counted t n) {records : List Entry} {panic : Panic} {k : ℕ}
    (hk : k < records.length) (hroom : ∀ j < k, stops t.capacity (n + j) = none)
    (hstops : stops t.capacity (n + k) = some panic) : t.replay records = throw panic := by
  induction records generalizing t n k with
  | nil => cases hk
  | cons e records ih =>
    rw [SkipMemtable.replay, List.foldlM_cons]
    cases k with
    | zero => rw [hc.insert_of_stops hstops]; rfl
    | succ k =>
      obtain ⟨t₁, newest, hinsert, hc₁, hcapacity⟩ := hc.insert_eq (hroom 0 (Nat.succ_pos _)) e
      rw [hinsert, map_pure, pure_bind]
      refine ih hc₁ (Nat.lt_of_succ_lt_succ hk) (fun j hj => ?_) ?_
      · rw [hcapacity, Nat.add_assoc, Nat.add_comm 1]
        exact hroom (j + 1) (Nat.succ_lt_succ hj)
      · rwa [hcapacity, Nat.add_assoc, Nat.add_comm 1]

/-- **When a replay exhausts the arena**: there are as many records as nodes, and no other assertion
fails before the last node is taken. -/
theorem replay_eq_arena_iff {records : List Entry} (hc : Counted t 0) (hpos : 0 < t.capacity) :
    t.replay records = throw .arena
      ↔ t.capacity ≤ records.length ∧ EnoughArena t.capacity (t.capacity - 1) := by
  have hlast : stops t.capacity (0 + (t.capacity - 1)) = some .arena := if_pos (by omega)
  constructor
  · intro h
    by_cases hroom : ∃ k, stops t.capacity k ≠ none ∧ k < records.length
    · -- the first record that finds no room is the one the replay stops at
      obtain ⟨hstops, hk⟩ := Nat.find_spec hroom
      have hbefore : ∀ j < Nat.find hroom, stops t.capacity j = none := fun j hj =>
        not_not.mp fun hne => Nat.find_min hroom hj ⟨hne, hj.trans hk⟩
      generalize Nat.find hroom = k at *
      obtain ⟨panic, hpanic⟩ := Option.ne_none_iff_exists'.mp hstops
      rw [hc.replay_of_stops hk (fun j hj => by rw [Nat.zero_add]; exact hbefore j hj)
        (by rwa [Nat.zero_add])] at h
      obtain rfl : panic = .arena := Except.error.inj (Option.some.inj h)
      have hle : t.capacity ≤ k + 1 := by
        unfold stops at hpanic
        split_ifs at hpanic with harena hindex hlinks <;> cases hpanic
        exact harena
      refine ⟨hle.trans hk, fun j hj => hbefore j (by omega)⟩
    · have hfits : ∀ k < records.length, stops t.capacity (0 + k) = none := fun k hk => by
        rw [Nat.zero_add]
        exact not_not.mp fun hne => hroom ⟨k, hne, hk⟩
      obtain ⟨t', ht'⟩ := hc.replay_eq hfits
      rw [ht'] at h
      cases h
  · rintro ⟨hle, henough⟩
    refine hc.replay_of_stops (k := t.capacity - 1) (by omega) (fun j hj => ?_) hlast
    rw [Nat.zero_add]
    exact henough j hj

/-- The mutation of an insert joins the table, and the insert returns `true` exactly if it is newer
than every mutation of its key before it. -/
theorem Filled.insert_eq (hf : Filled t es) (hroom : stops t.capacity es.length = none)
    (hseq : e.seq < u64Limit) (hfresh : ∀ v ∈ es, v.seq ≠ e.seq) :
    ∃ t' newest, t.insert e = pure (t', newest) ∧ Filled t' (es ++ [e])
      ∧ t'.capacity = t.capacity
      ∧ (newest = true ↔ ∀ v ∈ es, v.key = e.key → v.seq < e.seq) := by
  obtain ⟨chain, hq⟩ := hf.quiet
  obtain ⟨harena, hindex, hlinks⟩ := hf.room hroom
  obtain ⟨n, hn, t', chain', newest, halone, ⟨links, rfl⟩, hq', hmem, hnewest⟩ :=
    hq.alone_insert (e := e) harena hindex hlinks hseq fun v hv heq =>
      hfresh v ((hf.mem_bottom v).mp hv) (Prod.mk.inj heq).2
  have hcounted := hf.publish hroom e ⟨chain', hq'.levels.toLinked⟩
  rw [show es.length + 1 = (es ++ [e]).length by rw [List.length_append,
    List.length_singleton]] at hcounted
  refine ⟨_, newest, insert_of_alone halone hn, ⟨hcounted, ⟨chain', hq'⟩, fun v => ?_⟩, rfl, ?_⟩
  · rw [hmem, hf.mem_bottom, List.mem_append, List.mem_singleton, or_comm]
  · rw [hnewest]
    refine forall_congr' fun v => ?_
    rw [hf.mem_bottom]
    refine forall_congr' fun hv => imp_congr_right fun _ => ?_
    have := hfresh v hv
    omega

/-- A lookup finds the newest mutation of its key. -/
theorem Filled.get_eq (hf : Filled t es) (key : Bytes) :
    t.get key = pure (Lookup.ofEntry (newest t.bottom key)) := by
  obtain ⟨chain, hq⟩ := hf.quiet
  obtain ⟨n, hn, halone⟩ := hq.alone_get key
  have hfuel : n ≤ t.fuel := hn.trans (by
    unfold SkipMemtable.fuel
    exact Nat.add_le_add (Nat.mul_le_mul_left _ (by omega)) (by omega))
  rw [SkipMemtable.get, alone_of_le halone rfl hfuel]

/-- The verdicts of inserts one after another, in a table that holds `prior`. -/
def verdicts (prior : List Entry) : List Entry → List Bool
  | [] => []
  | e :: es => decide (∀ v ∈ prior, v.key = e.key → v.seq < e.seq) :: verdicts (prior ++ [e]) es

theorem Filled.insertAll_eq {prior : List Entry} (hf : Filled t prior) (es : List Entry)
    (hroom : EnoughArena t.capacity (prior.length + es.length)) (hseq : ∀ e ∈ es, e.seq < u64Limit)
    (hdistinct : ((prior ++ es).map Version.seq).Nodup) :
    ∃ t', t.insertAll es = pure (t', verdicts prior es) ∧ Filled t' (prior ++ es) := by
  induction es generalizing t prior with
  | nil => exact ⟨t, rfl, by rwa [List.append_nil]⟩
  | cons e es ih =>
    have hfresh : ∀ v ∈ prior, v.seq ≠ e.seq := by
      rw [List.map_append, List.nodup_append] at hdistinct
      exact fun v hv => hdistinct.2.2 v.seq (List.mem_map_of_mem hv) e.seq
        (List.mem_map_of_mem List.mem_cons_self)
    obtain ⟨t₁, newest, hinsert, hf₁, hcapacity, hnewest⟩ := hf.insert_eq
      (hroom prior.length (by rw [List.length_cons]; omega)) (hseq e List.mem_cons_self) hfresh
    obtain ⟨t', hall, hf'⟩ := ih hf₁
      (by rwa [hcapacity, List.length_append, List.length_singleton, Nat.add_assoc, Nat.add_comm 1])
      (fun v hv => hseq v (List.mem_cons_of_mem _ hv)) (by rwa [List.append_assoc])
    refine ⟨t', ?_, by rwa [List.append_assoc] at hf'⟩
    have hverdict : newest = decide (∀ v ∈ prior, v.key = e.key → v.seq < e.seq) := by
      rw [Bool.eq_iff_iff, hnewest, decide_eq_true_iff]
    rw [SkipMemtable.insertAll, hinsert, pure_bind]
    dsimp only
    rw [hall, pure_bind, verdicts, hverdict]

end

end Skiplist

end Lsmkv
