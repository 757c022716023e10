import Mathlib.Logic.Function.Basic
import Mathlib.Tactic.Tauto
import Lsmkv.Lib.Linearizable
import Lsmkv.Lib.Version

/-!
# Maps that keep versions

A map that serves `put` and `get` by versions.  A `put` first draws a number, larger than all drawn
before, and publishes its version some time later; a `get` answers with the newest version published
for its key, or with what the map held to begin with.  `VersionedMap` is such a map with its
clients, and `Step` what can happen next.  A call may also be given up before it has published
anything.

Versions can be published in another order than that of their numbers, so the moment a version is
published is not always the moment its `put` takes effect: a version that comes after a newer one of
its key is never seen.  Such a `put` takes effect right before the newer one, which is in time since
the newer number was drawn later.  `Reaches.linearizes` says that the calls can be served one at a
time by a plain map, and that this ends in what a `get` would answer now.
-/

namespace Lsmkv

variable {γ κ ν : Type*}

/-- What is asked of a map.  A `put` of `none` removes the key. -/
inductive MapCall (κ ν : Type*)
  | put (key : κ) (value : Option ν)
  | get (key : κ)
  deriving DecidableEq, Repr

variable [DecidableEq κ]

/-- What a map does with a call: a `put` answers nothing, a `get` the value of its key. -/
def MapCall.apply (m : κ → Option ν) : MapCall κ ν → (κ → Option ν) × Option ν
  | .put key value => (Function.update m key value, none)
  | .get key => (m, m key)

/-- `base` with the newest versions over it. -/
def overlay (base : κ → Option ν) (h : List (Version κ ν)) (k : κ) : Option ν :=
  match newest h k with
  | some v => v.value
  | none => base k

/-- A version newer than all others of its key is what the map answers. -/
theorem overlay_append_of_newer {base : κ → Option ν} {h : List (Version κ ν)} {v : Version κ ν}
    (hnew : ∀ u ∈ h, u.key = v.key → u.seq < v.seq) :
    overlay base (h ++ [v]) = Function.update (overlay base h) v.key v.value := by
  funext k
  unfold overlay
  rw [newest_append_singleton]
  by_cases hk : v.key = k
  · subst hk
    rw [if_pos rfl, Function.update_self]
    unfold Version.later
    cases hn : newest h v.key with
    | none => rfl
    | some b =>
      obtain ⟨hb, hbk, -⟩ := newest_spec hn
      simp only [if_pos (hnew b hb hbk)]
  · rw [if_neg hk, Function.update_of_ne (Ne.symm hk)]

/-- A version that comes after a newer one of its key is not seen. -/
theorem overlay_append_of_older {base : κ → Option ν} {h : List (Version κ ν)} {v u : Version κ ν}
    (hu : u ∈ h) (hkey : u.key = v.key) (hlt : v.seq < u.seq) :
    overlay base (h ++ [v]) = overlay base h := by
  funext k
  unfold overlay
  rw [newest_append_singleton]
  by_cases hk : v.key = k
  · subst hk
    rw [if_pos rfl]
    unfold Version.later
    cases hn : newest h v.key with
    | none => exact absurd hkey (newest_eq_none_iff.mp hn u hu)
    | some b =>
      have hle := (newest_spec hn).2.2 u hu hkey
      simp only [if_neg (not_lt.mpr (hlt.le.trans hle))]
  · rw [if_neg hk]

/-- Only membership matters to what is laid over a map. -/
theorem overlay_congr {base : κ → Option ν} {g h : List (Version κ ν)} (hd : Distinct h)
    (hmem : ∀ v, v ∈ g ↔ v ∈ h) : overlay base g = overlay base h := by
  funext k
  unfold overlay
  rw [newest_congr hd fun v _ => hmem v]

/-! ### The machine -/

/-- Where a client of a map stands. -/
inductive VersionedMap.Client (κ ν : Type*)
  | idle
  | called (input : MapCall κ ν) (start : ℕ)
  /-- In a `put` that has drawn its number. -/
  | numbered (version : Version κ ν) (start : ℕ)
  /-- In a `put` that has published its version, or in a `get` that has its answer. -/
  | answered (input : MapCall κ ν) (output : Option ν) (start : ℕ)
  deriving DecidableEq, Repr

/-- A map of versions with its clients. -/
structure VersionedMap (γ κ ν : Type*) where
  base : κ → Option ν
  clock : ℕ
  /-- No larger number was drawn. -/
  last : ℕ
  published : List (Version κ ν)
  client : γ → VersionedMap.Client κ ν
  returned : List (Call γ (MapCall κ ν) (Option ν))

namespace VersionedMap

variable [DecidableEq γ]

/-- Nobody has called the map yet. -/
structure Fresh (m : VersionedMap γ κ ν) : Prop where
  published : m.published = []
  returned : m.returned = []
  client : ∀ i, m.client i = .idle

/-- A client moves, which takes one tick of the clock. -/
def goto (m : VersionedMap γ κ ν) (i : γ) (c : Client κ ν) : VersionedMap γ κ ν :=
  { m with clock := m.clock + 1, client := Function.update m.client i c }

/-- What can happen next. -/
inductive Step (m : VersionedMap γ κ ν) : VersionedMap γ κ ν → Prop
  | call {i : γ} (input : MapCall κ ν) (hi : m.client i = .idle) :
      Step m (m.goto i (.called input m.clock))
  | number {i : γ} {key : κ} {value : Option ν} {start n : ℕ}
      (hi : m.client i = .called (.put key value) start) (hn : m.last < n) :
      Step m { m.goto i (.numbered ⟨key, n, value⟩ start) with last := n }
  | publish {i : γ} {v : Version κ ν} {start : ℕ} (hi : m.client i = .numbered v start) :
      Step m { m.goto i (.answered (.put v.key v.value) none start) with
        published := m.published ++ [v] }
  | read {i : γ} {key : κ} {start : ℕ} (hi : m.client i = .called (.get key) start) :
      Step m (m.goto i (.answered (.get key) (overlay m.base m.published key) start))
  | ret {i : γ} {input : MapCall κ ν} {output : Option ν} {start : ℕ}
      (hi : m.client i = .answered input output start) :
      Step m { m.goto i .idle with
        returned := m.returned ++ [⟨i, input, output, start, some m.clock⟩] }
  | giveUp {i : γ} (hi : ∀ input output start, m.client i ≠ .answered input output start) :
      Step m (m.goto i .idle)
  | wait {last : ℕ} (hlast : m.last ≤ last) : Step m { m with clock := m.clock + 1, last := last }

/-- The states runs lead to. -/
inductive Reaches : VersionedMap γ κ ν → Prop
  | fresh {m : VersionedMap γ κ ν} (h : m.Fresh) : Reaches m
  | step {m m' : VersionedMap γ κ ν} (h : Reaches m) (hstep : Step m m') : Reaches m'

/-! ### The order in which calls take effect -/

/-- A call that has taken effect; a `put` has published a version of this number. -/
structure Effect (γ κ ν : Type*) extends TimedCall γ (MapCall κ ν) (Option ν) where
  seq : ℕ

/-- The version a `put` has published. -/
def Effect.version (x : Effect γ κ ν) : Option (Version κ ν) :=
  match x.input with
  | .put key value => some ⟨key, x.seq, value⟩
  | .get _ => none

/-- The calls of `order` took effect in this order, as a map of versions leaves them. -/
structure Serves (m : VersionedMap γ κ ν) (order : List (Effect γ κ ν)) : Prop where
  returned : ((order.filter fun x => x.stop.isSome).map fun x => x.toCall).Perm m.returned
  running : ∀ x ∈ order, x.stop = none → m.client x.client = .answered x.input x.output x.start
  answered : ∀ i input output start, m.client i = .answered input output start →
    ∃ x ∈ order, x.client = i ∧ x.stop = none
  single : (order.filter fun x => x.stop.isNone).Pairwise fun x y => x.client ≠ y.client
  legal : Legal MapCall.apply m.base (order.map fun x => x.toCall) (overlay m.base m.published)
  sorted : order.Pairwise fun x y => x.point ≤ y.point
  within : ∀ x ∈ order, x.Within
  past : ∀ x ∈ order, x.point < m.clock
  versions : (order.filterMap Effect.version).Perm m.published
  ascending : (order.filterMap Effect.version).Pairwise fun v w => v.key = w.key → v.seq < w.seq
  /-- A newer version takes effect only after an older one was asked for. -/
  asked : ∀ i v start, m.client i = .numbered v start →
    ∀ x ∈ order, ∀ u ∈ x.version, v.seq < u.seq → start ≤ x.point
  bounded : ∀ u ∈ m.published, u.seq ≤ m.last
  drawn : ∀ i v start, m.client i = .numbered v start →
    v.seq ≤ m.last ∧ ∀ u ∈ m.published, u.seq ≠ v.seq
  distinct : ∀ i j v w start start', m.client i = .numbered v start →
    m.client j = .numbered w start' → v.seq = w.seq → i = j
  begun : ∀ i, (∀ input start, m.client i = .called input start → start < m.clock)
    ∧ ∀ v start, m.client i = .numbered v start → start < m.clock

section

variable {m m' : VersionedMap γ κ ν} {order first second : List (Effect γ κ ν)}

omit [DecidableEq κ] in
@[simp]
theorem client_goto_self (m : VersionedMap γ κ ν) (i : γ) (c : Client κ ν) :
    (m.goto i c).client i = c := Function.update_self ..

omit [DecidableEq κ] in
@[simp]
theorem client_goto_of_ne (m : VersionedMap γ κ ν) {i j : γ} (c : Client κ ν) (h : j ≠ i) :
    (m.goto i c).client j = m.client j := Function.update_of_ne h ..

omit [DecidableEq κ] in
/-- A client that is not where `i` went was there before. -/
theorem of_client_goto {i j : γ} {c c' : Client κ ν} (h : (m.goto i c).client j = c')
    (hne : c ≠ c') : j ≠ i ∧ m.client j = c' := by
  have hji : j ≠ i := by
    rintro rfl
    exact hne (by rwa [client_goto_self] at h)
  exact ⟨hji, by rwa [client_goto_of_ne _ _ hji] at h⟩

omit [DecidableEq κ] in
theorem client_goto_iff {i j : γ} {c c' : Client κ ν} (hne : c ≠ c') (hi : m.client i ≠ c') :
    (m.goto i c).client j = c' ↔ m.client j = c' := by
  refine ⟨fun h => (of_client_goto h hne).2, fun h => ?_⟩
  rwa [client_goto_of_ne _ _ fun hji : j = i => hi (hji ▸ h)]

omit [DecidableEq γ] in
theorem Fresh.serves (h : m.Fresh) : m.Serves [] where
  returned := by rw [h.returned]; exact List.Perm.refl _
  running x hx := by cases hx
  answered i input output start hi := by rw [h.client i] at hi; cases hi
  single := List.Pairwise.nil
  legal := by rw [h.published]; rfl
  sorted := List.Pairwise.nil
  within x hx := by cases hx
  past x hx := by cases hx
  versions := by rw [h.published]; exact List.Perm.refl _
  ascending := List.Pairwise.nil
  asked i v start hi := by rw [h.client i] at hi; cases hi
  bounded u hu := by rw [h.published] at hu; cases hu
  drawn i v start hi := by rw [h.client i] at hi; cases hi
  distinct i j v w start start' hi := by rw [h.client i] at hi; cases hi
  begun i := by simp [h.client i]

omit [DecidableEq γ] in
/-- The versions published are those of the calls that took effect. -/
theorem Serves.mem_published (h : m.Serves order) {x : Effect γ κ ν} (hx : x ∈ order)
    {u : Version κ ν} (hu : u ∈ x.version) : u ∈ m.published :=
  h.versions.subset (List.mem_filterMap.mpr ⟨x, hx, hu⟩)

/-- A step by which no call takes effect and none returns.  One client may draw a number. -/
theorem Serves.frame (h : m.Serves order) (hbase : m'.base = m.base)
    (hpublished : m'.published = m.published) (hreturned : m'.returned = m.returned)
    (hclock : m.clock ≤ m'.clock) (hlast : m.last ≤ m'.last)
    (hanswered : ∀ j input output start, m'.client j = .answered input output start
      ↔ m.client j = .answered input output start)
    (draws : γ → Prop) (hdraws : ∀ i j, draws i → draws j → i = j)
    (hnumbered : ∀ j v start, m'.client j = .numbered v start → m.client j = .numbered v start
      ∨ draws j ∧ m.last < v.seq ∧ v.seq ≤ m'.last ∧ start < m'.clock)
    (hcalled : ∀ j input start, m'.client j = .called input start → start < m'.clock) :
    m'.Serves order := by
  have hbelow : ∀ {j v start}, m.client j = .numbered v start → v.seq ≤ m.last :=
    fun hj => (h.drawn _ _ _ hj).1
  exact {
    returned := by rw [hreturned]; exact h.returned
    running := fun x hx hstop => (hanswered _ _ _ _).mpr (h.running x hx hstop)
    answered := fun j input output start hj =>
      h.answered j input output start ((hanswered _ _ _ _).mp hj)
    single := h.single
    legal := by rw [hbase, hpublished]; exact h.legal
    sorted := h.sorted
    within := h.within
    past := fun x hx => (h.past x hx).trans_le hclock
    versions := by rw [hpublished]; exact h.versions
    ascending := h.ascending
    asked := fun j v start hj x hx u hu hlt => by
      rcases hnumbered j v start hj with hj | ⟨-, hv, -⟩
      · exact h.asked j v start hj x hx u hu hlt
      · -- a number just drawn is larger than all published
        have := h.bounded u (h.mem_published hx hu)
        omega
    bounded := fun u hu => (h.bounded u (hpublished ▸ hu)).trans hlast
    drawn := fun j v start hj => by
      rw [hpublished]
      rcases hnumbered j v start hj with hj | ⟨-, hv, hle, -⟩
      · exact ⟨(hbelow hj).trans hlast, (h.drawn j v start hj).2⟩
      · exact ⟨hle, fun u hu => ((h.bounded u hu).trans_lt hv).ne⟩
    distinct := fun j k v w start start' hj hk hseq => by
      rcases hnumbered j v start hj with hj | ⟨hdj, hv, -⟩ <;>
        rcases hnumbered k w start' hk with hk | ⟨hdk, hw, -⟩
      · exact h.distinct j k v w start start' hj hk hseq
      · have := hbelow hj
        omega
      · have := hbelow hk
        omega
      · exact hdraws j k hdj hdk
    begun := fun j => by
      refine ⟨hcalled j, fun v start hj => ?_⟩
      rcases hnumbered j v start hj with hj | ⟨-, -, -, hstart⟩
      · exact ((h.begun j).2 v start hj).trans_le hclock
      · exact hstart }

omit [DecidableEq γ] [DecidableEq κ] in
theorem pairwise_insert {α : Type*} {R : α → α → Prop} {first second : List α} {x : α}
    (h : (first ++ second).Pairwise R) (hfirst : ∀ a ∈ first, R a x)
    (hsecond : ∀ b ∈ second, R x b) : (first ++ x :: second).Pairwise R := by
  rw [List.pairwise_append] at h ⊢
  refine ⟨h.1, List.pairwise_cons.mpr ⟨hsecond, h.2.1⟩, fun a ha b hb => ?_⟩
  rcases List.mem_cons.mp hb with rfl | hb
  · exact hfirst a ha
  · exact h.2.2 a ha b hb

/-- The call `x` takes effect, between those of `first` and those of `second`. -/
theorem Serves.insert {x : Effect γ κ ν} (h : m.Serves (first ++ second))
    (hx : ∀ input output start, m.client x.client ≠ .answered input output start)
    (hstop : x.stop = none)
    (hm' : m' = { m.goto x.client (.answered x.input x.output x.start) with
      published := m.published ++ x.version.toList })
    (hfirst : ∀ a ∈ first, a.point ≤ x.point) (hsecond : ∀ b ∈ second, x.point ≤ b.point)
    (hstart : x.start ≤ x.point) (hpast : x.point ≤ m.clock)
    (hlegal : Legal MapCall.apply m.base ((first ++ x :: second).map fun x => x.toCall)
      (overlay m'.base m'.published))
    (hversion : ∀ v ∈ x.version, m.client x.client = .numbered v x.start
      ∧ (∀ u ∈ first.filterMap Effect.version, u.key = v.key → u.seq < v.seq)
      ∧ (∀ u ∈ second.filterMap Effect.version, v.key = u.key → v.seq < u.seq)
      ∧ ∀ j w start, m.client j = .numbered w start → w.seq < v.seq → start ≤ x.point) :
    m'.Serves (first ++ x :: second) := by
  have hmem : ∀ y, y ∈ first ++ x :: second ↔ y = x ∨ y ∈ first ++ second := by
    intro y
    simp only [List.mem_append, List.mem_cons]
    tauto
  have hother : ∀ j, j ≠ x.client → m'.client j = m.client j := fun j hj => by
    rw [hm']
    exact client_goto_of_ne _ _ hj
  have hself : m'.client x.client = .answered x.input x.output x.start := by
    rw [hm']
    exact client_goto_self _ _ _
  have hmoved : ∀ {j c}, m'.client j = c → .answered x.input x.output x.start ≠ c →
      j ≠ x.client ∧ m.client j = c := fun hj hne => by
    rw [hm'] at hj
    exact of_client_goto hj hne
  -- the calls running before are those of other clients
  have hrunning : ∀ y ∈ first ++ second, y.stop = none → y.client ≠ x.client := by
    intro y hy hstop heq
    exact hx _ _ _ (heq ▸ h.running y hy hstop)
  have hnumbered : ∀ j v start, m'.client j = .numbered v start →
      j ≠ x.client ∧ m.client j = .numbered v start := fun j v start hj => hmoved hj (by simp)
  have hfilter : (first ++ x :: second).filterMap Effect.version
      = first.filterMap Effect.version
        ++ (x.version.toList ++ second.filterMap Effect.version) := by
    rw [List.filterMap_append, List.filterMap_cons]
    cases x.version <;> rfl
  have hpublished : m'.published = m.published ++ x.version.toList := by rw [hm']
  exact {
    returned := by
      have hfilter : ((first ++ x :: second).filter fun x => x.stop.isSome)
          = (first ++ second).filter fun x => x.stop.isSome := by
        simp [List.filter_append, hstop]
      rw [hfilter, hm']
      exact h.returned
    running := fun y hy hy' => by
      rcases (hmem y).mp hy with rfl | hy
      · exact hself
      · rw [hother _ (hrunning y hy hy')]
        exact h.running y hy hy'
    answered := fun j input output start hj => by
      by_cases hne : j = x.client
      · exact ⟨x, (hmem x).mpr (Or.inl rfl), hne.symm, hstop⟩
      · rw [hother j hne] at hj
        obtain ⟨y, hy, hyj, hy'⟩ := h.answered j input output start hj
        exact ⟨y, (hmem y).mpr (Or.inr hy), hyj, hy'⟩
    single := by
      have hsingle := h.single
      have hne : ∀ y ∈ (first ++ second).filter (fun x => x.stop.isNone),
          y.client ≠ x.client := fun y hy => by
        obtain ⟨hy, hy'⟩ := List.mem_filter.mp hy
        exact hrunning y hy (Option.isNone_iff_eq_none.mp hy')
      rw [List.filter_append] at hsingle hne ⊢
      rw [List.filter_cons_of_pos (by rw [hstop]; rfl)]
      exact pairwise_insert hsingle (fun y hy => hne y (List.mem_append_left _ hy))
        fun y hy => (hne y (List.mem_append_right _ hy)).symm
    legal := by
      rw [hm'] at hlegal ⊢
      exact hlegal
    sorted := pairwise_insert h.sorted hfirst hsecond
    within := fun y hy => by
      rcases (hmem y).mp hy with rfl | hy
      · exact ⟨hstart, fun t ht => by rw [hstop] at ht; cases ht⟩
      · exact h.within y hy
    past := fun y hy => by
      have hclock : m'.clock = m.clock + 1 := by rw [hm']; rfl
      rcases (hmem y).mp hy with rfl | hy
      · omega
      · have := h.past y hy
        omega
    versions := by
      rw [hfilter, hpublished]
      have := h.versions
      rw [List.filterMap_append] at this
      refine (List.Perm.append_left _ List.perm_append_comm).trans ?_
      rw [← List.append_assoc]
      exact this.append_right _
    ascending := by
      have hascending := h.ascending
      rw [List.filterMap_append, List.pairwise_append] at hascending
      rw [hfilter, List.pairwise_append, List.pairwise_append]
      refine ⟨hascending.1, ⟨?_, hascending.2.1, fun v hv u hu => ?_⟩, fun u hu w hw => ?_⟩
      · cases x.version <;> simp
      · exact (hversion v (Option.mem_toList.mp hv)).2.2.1 u hu
      · rcases List.mem_append.mp hw with hw | hw
        · exact (hversion w (Option.mem_toList.mp hw)).2.1 u hu
        · exact hascending.2.2 u hu w hw
    asked := fun j w start hj y hy u hu hlt => by
      obtain ⟨-, hj⟩ := hnumbered j w start hj
      rcases (hmem y).mp hy with rfl | hy
      · exact (hversion u hu).2.2.2 j w start hj hlt
      · exact h.asked j w start hj y hy u hu hlt
    bounded := fun u hu => by
      have hlast : m'.last = m.last := by rw [hm']; rfl
      rw [hlast]
      rw [hpublished] at hu
      rcases List.mem_append.mp hu with hu | hu
      · exact h.bounded u hu
      · exact (h.drawn _ _ _ (hversion u (Option.mem_toList.mp hu)).1).1
    drawn := fun j w start hj => by
      obtain ⟨hne, hj⟩ := hnumbered j w start hj
      have hlast : m'.last = m.last := by rw [hm']; rfl
      rw [hlast, hpublished]
      refine ⟨(h.drawn j w start hj).1, fun u hu heq => ?_⟩
      rcases List.mem_append.mp hu with hu | hu
      · exact (h.drawn j w start hj).2 u hu heq
      · have hu := (hversion u (Option.mem_toList.mp hu)).1
        exact hne (h.distinct j _ w u _ _ hj hu heq.symm)
    distinct := fun j k v w start start' hj hk hseq =>
      h.distinct j k v w start start' (hnumbered j v start hj).2 (hnumbered k w start' hk).2 hseq
    begun := fun j => by
      have hclock : m'.clock = m.clock + 1 := by rw [hm']; rfl
      rw [hclock]
      refine ⟨fun input start hj => ?_, fun v start hj => ?_⟩
      · have := (h.begun j).1 input start (hmoved hj (by simp)).2
        omega
      · have := (h.begun j).2 v start (hnumbered j v start hj).2
        omega }

/-- A version newer than all others of its key takes effect when it is published. -/
theorem Serves.publish_newer (h : m.Serves order) {i : γ} {v : Version κ ν} {start : ℕ}
    (hi : m.client i = .numbered v start)
    (hnew : ∀ u ∈ m.published, u.key = v.key → u.seq < v.seq) :
    ∃ order', ({ m.goto i (.answered (.put v.key v.value) none start) with
      published := m.published ++ [v] } : VersionedMap γ κ ν).Serves order' := by
  let x : Effect γ κ ν :=
    { client := i, input := .put v.key v.value, output := none, start := start, stop := none
      point := m.clock, seq := v.seq }
  rw [← List.append_nil order] at h
  refine ⟨order ++ [x], h.insert (x := x) (fun _ _ _ => by simp [x, hi]) rfl rfl
    (fun a ha => (h.past a (by simpa using ha)).le) (fun _ hb => by cases hb)
    ((h.begun i).2 v start hi).le le_rfl ?_ ?_⟩
  · rw [List.map_append, legal_append]
    refine ⟨_, by simpa using h.legal, rfl, ?_⟩
    exact (overlay_append_of_newer hnew).symm
  · intro w hw
    obtain rfl : v = w := Option.some.inj hw
    refine ⟨hi, fun u hu => hnew u ?_, fun _ hu => (by cases hu), fun j w start hj _ => ?_⟩
    · exact h.versions.subset (by simpa using hu)
    · exact ((h.begun j).2 w start hj).le

/-- A version that comes after a newer one of its key takes effect right before that one. -/
theorem Serves.publish_older (h : m.Serves order) {i : γ} {v u : Version κ ν} {start : ℕ}
    (hi : m.client i = .numbered v start) (hu : u ∈ m.published) (hkey : u.key = v.key)
    (hlt : v.seq < u.seq) :
    ∃ order', ({ m.goto i (.answered (.put v.key v.value) none start) with
      published := m.published ++ [v] } : VersionedMap γ κ ν).Serves order' := by
  classical
  -- the first of the newer versions in the order
  let newer (y : Effect γ κ ν) : Prop := ∃ w ∈ y.version, w.key = v.key ∧ v.seq < w.seq
  obtain ⟨y, hy, hyu⟩ := List.mem_filterMap.mp (h.versions.symm.subset hu)
  obtain ⟨z, hz⟩ : ∃ z, order.find? (fun y => decide (newer y)) = some z := by
    refine Option.isSome_iff_exists.mp (List.find?_isSome.mpr ⟨y, hy, ?_⟩)
    exact decide_eq_true ⟨u, hyu, hkey, hlt⟩
  obtain ⟨hzn, first, second, rfl, hfirst⟩ := List.find?_eq_some_iff_append.mp hz
  obtain ⟨w, hw, hwkey, hwlt⟩ := of_decide_eq_true hzn
  have hzmem : z ∈ first ++ z :: second := by simp
  have hzinput : z.input = .put v.key w.value ∧ z.seq = w.seq := by
    unfold Effect.version at hw
    split at hw
    · rename_i key value hinput
      obtain rfl : (⟨key, z.seq, value⟩ : Version κ ν) = w := Option.some.inj hw
      exact ⟨by rw [hinput, ← hwkey], rfl⟩
    · cases hw
  let x : Effect γ κ ν :=
    { client := i, input := .put v.key v.value, output := none, start := start, stop := none
      point := z.point, seq := v.seq }
  have hsorted := List.pairwise_append.mp h.sorted
  have hascending := h.ascending
  rw [List.filterMap_append, List.filterMap_cons_some hw, List.pairwise_append,
    List.pairwise_cons] at hascending
  refine ⟨first ++ x :: z :: second, h.insert (x := x) (fun _ _ _ => by simp [x, hi]) rfl rfl
    (fun a ha => hsorted.2.2 a ha z List.mem_cons_self) (fun b hb => ?_)
    (h.asked i v start hi z hzmem w hw hwlt) (h.past z hzmem).le ?_ ?_⟩
  · rcases List.mem_cons.mp hb with rfl | hb
    · exact le_rfl
    · exact (List.pairwise_cons.mp hsorted.2.1).1 b hb
  · -- what `x` puts is overwritten at once
    have hlegal := h.legal
    rw [List.map_append, List.map_cons, legal_append] at hlegal
    obtain ⟨t, hbefore, houtput, hafter⟩ := hlegal
    rw [List.map_append, List.map_cons, List.map_cons, legal_append]
    have hoverlay : overlay m.base (m.published ++ [v]) = overlay m.base m.published :=
      overlay_append_of_older hu hkey hlt
    refine ⟨t, hbefore, rfl, ?_, ?_⟩
    · rw [hzinput.1] at houtput ⊢
      exact houtput
    · rw [hzinput.1] at hafter ⊢
      change Legal _ (Function.update (Function.update t v.key v.value) v.key w.value) _
        (overlay m.base (m.published ++ [v]))
      rw [Function.update_idem, hoverlay]
      exact hafter
  · intro v' hv'
    obtain rfl : v = v' := Option.some.inj hv'
    refine ⟨hi, fun u' hu' hkey' => ?_, fun u' hu' hkey' => ?_, fun j w' start' hj hlt' => ?_⟩
    · obtain ⟨a, ha, hau⟩ := List.mem_filterMap.mp hu'
      have hnot := hfirst a ha
      rw [Bool.not_eq_true', decide_eq_false_iff_not] at hnot
      refine lt_of_le_of_ne (not_lt.mp fun hlt' => hnot ⟨u', hau, hkey', hlt'⟩) ?_
      exact (h.drawn i v start hi).2 u' (h.mem_published (List.mem_append_left _ ha) hau)
    · rw [List.filterMap_cons_some hw] at hu'
      rcases List.mem_cons.mp hu' with rfl | hu'
      · exact hwlt
      · exact hwlt.trans (hascending.2.1.1 u' hu' (hwkey.trans hkey'))
    · exact h.asked j w' start' hj z hzmem w hw (hlt'.trans hwlt)

/-- A `get` takes effect when it reads. -/
theorem Serves.read (h : m.Serves order) {i : γ} {key : κ} {start : ℕ}
    (hi : m.client i = .called (.get key) start) :
    ∃ order', (m.goto i (.answered (.get key) (overlay m.base m.published key) start)).Serves
      order' := by
  let x : Effect γ κ ν :=
    { client := i, input := .get key, output := overlay m.base m.published key, start := start
      stop := none, point := m.clock, seq := 0 }
  rw [← List.append_nil order] at h
  refine ⟨order ++ [x], h.insert (x := x) (fun _ _ _ => by simp [x, hi]) rfl ?_
    (fun a ha => (h.past a (by simpa using ha)).le) (fun _ hb => by cases hb)
    ((h.begun i).1 _ start hi).le le_rfl ?_ (fun _ hv => by cases hv)⟩
  · change _ = { m.goto i _ with published := m.published ++ [] }
    rw [List.append_nil]
    rfl
  · rw [List.map_append, legal_append]
    exact ⟨_, by simpa using h.legal, rfl, rfl⟩

/-- A call returns. -/
theorem Serves.ret (h : m.Serves order) {i : γ} {input : MapCall κ ν} {output : Option ν}
    {start : ℕ} (hi : m.client i = .answered input output start) :
    ∃ order', ({ m.goto i .idle with
      returned := m.returned ++ [⟨i, input, output, start, some m.clock⟩] }
        : VersionedMap γ κ ν).Serves order' := by
  obtain ⟨x, hx, rfl, hstop⟩ := h.answered i input output start hi
  have hrunning := h.running x hx hstop
  rw [hi] at hrunning
  obtain ⟨rfl, rfl, rfl⟩ := Client.answered.inj hrunning
  obtain ⟨first, second, rfl⟩ := List.append_of_mem hx
  let y : Effect γ κ ν := { x with stop := some m.clock }
  have hmem : ∀ z, z ∈ first ++ y :: second → z = y ∨ z ∈ first ++ x :: second := by
    intro z hz
    simp only [List.mem_append, List.mem_cons] at hz ⊢
    tauto
  -- the other calls that are running are those of other clients
  have hsingle := h.single
  rw [List.filter_append, List.filter_cons_of_pos (by rw [hstop]; rfl), List.pairwise_append,
    List.pairwise_cons] at hsingle
  have hother : ∀ z ∈ first ++ second, z.stop = none → z.client ≠ x.client := by
    intro z hz hz'
    have hnone : z.stop.isNone = true := by rw [hz']; rfl
    rcases List.mem_append.mp hz with hz | hz
    · exact hsingle.2.2 z (List.mem_filter.mpr ⟨hz, hnone⟩) x List.mem_cons_self
    · exact (hsingle.2.1.1 z (List.mem_filter.mpr ⟨hz, hnone⟩)).symm
  have hrest : ∀ z ∈ first ++ y :: second, z.stop = none → z ∈ first ++ second := by
    intro z hz hz'
    simp only [List.mem_append, List.mem_cons] at hz ⊢
    rcases hz with hz | rfl | hz
    · exact Or.inl hz
    · cases hz'
    · exact Or.inr hz
  have hversion : (first ++ y :: second).filterMap Effect.version
      = (first ++ x :: second).filterMap Effect.version := by
    rw [List.filterMap_append, List.filterMap_append, List.filterMap_cons, List.filterMap_cons]
    rfl
  refine ⟨first ++ y :: second, ?_⟩
  exact {
    returned := by
      have := h.returned
      rw [List.filter_append, List.filter_cons_of_neg (by simp [hstop]), ← List.filter_append]
        at this
      rw [List.filter_append, List.filter_cons_of_pos (by rfl), List.map_append, List.map_cons]
      refine List.perm_middle.trans ((List.Perm.cons _ ?_).trans
        (List.perm_append_singleton _ _).symm)
      rwa [← List.map_append, ← List.filter_append]
    running := fun z hz hz' => by
      have hz := hrest z hz hz'
      change (m.goto x.client .idle).client z.client = _
      rw [client_goto_of_ne _ _ (hother z hz hz')]
      refine h.running z ?_ hz'
      simp only [List.mem_append, List.mem_cons] at hz ⊢
      tauto
    answered := fun j input output start hj => by
      obtain ⟨hne, hj⟩ := of_client_goto hj (by simp)
      obtain ⟨z, hz, rfl, hz'⟩ := h.answered j input output start hj
      refine ⟨z, ?_, rfl, hz'⟩
      simp only [List.mem_append, List.mem_cons] at hz ⊢
      rcases hz with hz | rfl | hz
      · exact Or.inl hz
      · exact absurd rfl hne
      · exact Or.inr (Or.inr hz)
    single := by
      rw [List.filter_append, List.filter_cons_of_neg (by simp [y]), List.pairwise_append]
      exact ⟨hsingle.1, hsingle.2.1.2,
        fun a ha b hb => hsingle.2.2 a ha b (List.mem_cons_of_mem _ hb)⟩
    legal := by
      refine h.legal.congr ?_
      rw [List.map_append, List.map_append, List.map_cons, List.map_cons]
      have hsame : ∀ calls : List (Call γ (MapCall κ ν) (Option ν)),
          List.Forall₂ (fun c c' => c'.input = c.input ∧ c'.output = c.output) calls calls :=
        fun calls => List.forall₂_same.mpr fun _ _ => ⟨rfl, rfl⟩
      exact List.rel_append (hsame _) (List.Forall₂.cons ⟨rfl, rfl⟩ (hsame _))
    sorted := by
      have hsorted := List.pairwise_append.mp h.sorted
      exact pairwise_insert (h.sorted.sublist ((List.sublist_cons_self ..).append_left _))
        (fun a ha => hsorted.2.2 a ha x List.mem_cons_self)
        (List.pairwise_cons.mp hsorted.2.1).1
    within := fun z hz => by
      rcases hmem z hz with rfl | hz
      · refine ⟨(h.within x hx).1, fun t ht => ?_⟩
        obtain rfl : m.clock = t := Option.some.inj ht
        exact (h.past x hx).le
      · exact h.within z hz
    past := fun z hz => by
      change _ < m.clock + 1
      rcases hmem z hz with rfl | hz
      · exact (h.past x hx).trans (Nat.lt_succ_self _)
      · exact (h.past z hz).trans (Nat.lt_succ_self _)
    versions := by rw [hversion]; exact h.versions
    ascending := by rw [hversion]; exact h.ascending
    asked := fun j v start hj z hz u hu hlt => by
      obtain ⟨-, hj⟩ := of_client_goto hj (by simp)
      rcases hmem z hz with rfl | hz
      · exact h.asked j v start hj x hx u hu hlt
      · exact h.asked j v start hj z hz u hu hlt
    bounded := h.bounded
    drawn := fun j v start hj => h.drawn j v start (of_client_goto hj (by simp)).2
    distinct := fun j k v w start start' hj hk =>
      h.distinct j k v w start start' (of_client_goto hj (by simp)).2
        (of_client_goto hk (by simp)).2
    begun := fun j => by
      refine ⟨fun input start hj => ?_, fun v start hj => ?_⟩
      · exact ((h.begun j).1 _ _ (of_client_goto hj (by simp)).2).trans (Nat.lt_succ_self _)
      · exact ((h.begun j).2 _ _ (of_client_goto hj (by simp)).2).trans (Nat.lt_succ_self _) }

/-- **Every step keeps an order in which the calls took effect.** -/
theorem Serves.step (h : m.Serves order) (hstep : Step m m') : ∃ order', m'.Serves order' := by
  have hbegun : ∀ {j i : γ} {c : Client κ ν} {input : MapCall κ ν} {start : ℕ},
      (m.goto i c).client j = .called input start → c ≠ .called input start →
        start < m.clock + 1 := fun hj hc =>
    ((h.begun _).1 _ _ (of_client_goto hj hc).2).trans (Nat.lt_succ_self _)
  -- a step that moves one client, to where no call takes effect and none returns
  have hgoto : ∀ {i : γ} {c : Client κ ν} {last : ℕ}, m.last ≤ last →
      (∀ input output start, m.client i ≠ .answered input output start) →
      (∀ input output start, c ≠ .answered input output start) →
      (∀ v start, c = .numbered v start → m.last < v.seq ∧ v.seq ≤ last ∧ start < m.clock + 1) →
      (∀ input start, c = .called input start → start < m.clock + 1) →
      ({ m.goto i c with last := last } : VersionedMap γ κ ν).Serves order := by
    intro i c last hlast hi hc hnumbered hcalled
    refine h.frame rfl rfl rfl (Nat.le_succ _) hlast
      (fun j input output start => client_goto_iff (hc input output start) (hi input output start))
      (· = i) (fun _ _ hj hk => hj.trans hk.symm) (fun j v start hj => ?_)
      fun j input start hj => ?_
    · by_cases hji : j = i
      · subst hji
        exact Or.inr ⟨rfl, hnumbered v start ((client_goto_self ..).symm.trans hj)⟩
      · exact Or.inl ((client_goto_of_ne _ _ hji).symm.trans hj)
    · by_cases hne : c = .called input start
      · exact hcalled input start hne
      · exact hbegun hj hne
  cases hstep with
  | @call i input hi =>
    refine ⟨order, hgoto le_rfl (by simp [hi]) (by simp) (by simp) fun input' start heq => ?_⟩
    obtain ⟨-, rfl⟩ := Client.called.inj heq
    exact Nat.lt_succ_self _
  | @number i key value start n hi hn =>
    refine ⟨order, hgoto hn.le (by simp [hi]) (by simp) (fun v start' heq => ?_) (by simp)⟩
    obtain ⟨rfl, rfl⟩ := Client.numbered.inj heq
    exact ⟨hn, le_rfl, ((h.begun i).1 _ _ hi).trans (Nat.lt_succ_self _)⟩
  | @publish i v start hi =>
    by_cases hnew : ∀ u ∈ m.published, u.key = v.key → u.seq < v.seq
    · exact h.publish_newer hi hnew
    · push Not at hnew
      obtain ⟨u, hu, hkey, hle⟩ := hnew
      exact h.publish_older hi hu hkey (lt_of_le_of_ne hle ((h.drawn i v start hi).2 u hu).symm)
  | read hi => exact h.read hi
  | ret hi => exact h.ret hi
  | giveUp hi => exact ⟨order, hgoto le_rfl hi (by simp) (by simp) (by simp)⟩
  | wait hlast =>
    exact ⟨order, h.frame rfl rfl rfl (Nat.le_succ _) hlast (fun _ _ _ _ => Iff.rfl)
      (fun _ => False) (fun _ _ h => h.elim) (fun _ _ _ hj => Or.inl hj)
      fun j input start hj => ((h.begun j).1 input start hj).trans (Nat.lt_succ_self _)⟩

/-- Versions that were drawn can be published, one after the other. -/
theorem Reaches.publish_all (h : m.Reaches) {extra : List (Version κ ν)} (hnodup : extra.Nodup)
    (hextra : ∀ v ∈ extra, ∃ i start, m.client i = .numbered v start) :
    ∃ m' : VersionedMap γ κ ν, m'.Reaches ∧ m'.base = m.base ∧ m'.returned = m.returned
      ∧ m'.published = m.published ++ extra ∧ ∀ i, m'.client i = m.client i
        ∨ ∃ v start, m.client i = .numbered v start
          ∧ m'.client i = .answered (.put v.key v.value) none start := by
  induction extra generalizing m with
  | nil => exact ⟨m, h, rfl, rfl, (List.append_nil _).symm, fun i => Or.inl rfl⟩
  | cons v rest ih =>
    obtain ⟨hv, hrest⟩ := List.nodup_cons.mp hnodup
    obtain ⟨i, start, hi⟩ := hextra v List.mem_cons_self
    obtain ⟨m', hm', hbase, hreturned, hpublished, hclient⟩ :=
      ih (h.step (.publish hi)) hrest fun u hu => by
        obtain ⟨j, start', hj⟩ := hextra u (List.mem_cons_of_mem _ hu)
        have hji : j ≠ i := by
          rintro rfl
          obtain ⟨rfl, -⟩ := Client.numbered.inj (hi.symm.trans hj)
          exact hv hu
        exact ⟨j, start', (client_goto_of_ne _ _ hji).trans hj⟩
    refine ⟨m', hm', hbase, hreturned, ?_, fun j => ?_⟩
    · rw [hpublished]
      exact List.append_assoc _ [v] rest
    · by_cases hji : j = i
      · subst hji
        have hself : ∀ published, VersionedMap.client { m.goto j
            (.answered (.put v.key v.value) none start) with published := published } j
            = .answered (.put v.key v.value) none start := fun _ => client_goto_self _ _ _
        refine Or.inr ⟨v, start, hi, ?_⟩
        rcases hclient j with h' | ⟨u, start', hu, -⟩
        · exact h'.trans (hself _)
        · cases (hself _).symm.trans hu
      · rw [← client_goto_of_ne m (.answered (.put v.key v.value) none start) hji]
        exact hclient j

/-- The call of a client in an effect that has not returned is running. -/
def Runs (m : VersionedMap γ κ ν) (c : Call γ (MapCall κ ν) (Option ν)) : Prop :=
  c.stop = none ∧ m.client c.client = .answered c.input c.output c.start

omit [DecidableEq γ] in
/-- The calls of a map, with those of `running` that have taken effect, can be served one at a time
by a plain map, which then holds what a `get` would answer. -/
theorem Serves.linearizes (h : m.Serves order) : ∃ running calls,
    Linearizes MapCall.apply m.base m.returned running calls (overlay m.base m.published)
      ∧ (∀ c ∈ running, m.Runs c) ∧ running.Pairwise fun a b => a.client ≠ b.client := by
  refine ⟨(order.filter fun x => x.stop.isNone).map fun x => x.toCall,
    order.map fun x => x.toCall, ⟨?_, h.legal, ?_⟩, fun c hc => ?_, ?_⟩
  · have hsplit := (List.filter_append_perm (fun x : Effect γ κ ν => x.stop.isSome) order).symm
    refine (hsplit.map _).trans ?_
    rw [List.map_append]
    refine List.Perm.append h.returned (List.Perm.of_eq ?_)
    congr 2
    funext x
    cases x.stop <;> rfl
  · have hpoints : (order.map fun x => x.toTimedCall).Pairwise fun a b => a.point ≤ b.point :=
      List.pairwise_map.mpr h.sorted
    have hrealTime := pairwise_of_points hpoints fun c hc => by
      obtain ⟨x, hx, rfl⟩ := List.mem_map.mp hc
      exact h.within x hx
    rwa [List.map_map] at hrealTime
  · obtain ⟨x, hx, rfl⟩ := List.mem_map.mp hc
    obtain ⟨hx, hstop⟩ := List.mem_filter.mp hx
    have hstop := Option.isNone_iff_eq_none.mp hstop
    exact ⟨hstop, h.running x hx hstop⟩
  · rw [List.pairwise_map]
    exact h.single

/-- **A map of versions is linearizable.** -/
theorem Reaches.linearizes (h : m.Reaches) : ∃ running calls,
    Linearizes MapCall.apply m.base m.returned running calls (overlay m.base m.published)
      ∧ (∀ c ∈ running, m.Runs c) ∧ running.Pairwise fun a b => a.client ≠ b.client := by
  obtain ⟨order, hserves⟩ : ∃ order, m.Serves order := by
    induction h with
    | fresh h => exact ⟨[], h.serves⟩
    | step _ hstep ih =>
      obtain ⟨order, hserves⟩ := ih
      exact hserves.step hstep
  exact hserves.linearizes

/-! ### One call at a time -/

/-- When the call of a client began. -/
def Client.start : Client κ ν → Option ℕ
  | .idle => none
  | .called _ start | .numbered _ start | .answered _ _ start => some start

/-- A client begins a call after the last one it made returned. -/
structure Sequential (m : VersionedMap γ κ ν) : Prop where
  begun : ∀ i, ∀ t ∈ (m.client i).start, t < m.clock
  returned : ∀ c ∈ m.returned, ∃ t, c.stop = some t ∧ c.start ≤ t ∧ t < m.clock
  ordered : OneAtATime m.returned
  running : ∀ i, ∀ t ∈ (m.client i).start, ∀ c ∈ m.returned, c.client = i →
    ∃ u ∈ c.stop, u < t

omit [DecidableEq κ] in
/-- A client moves on in its call, begins one or drops it. -/
theorem Sequential.goto (h : m.Sequential) {i : γ} {c : Client κ ν}
    (hc : ∀ t ∈ c.start, t = m.clock ∨ t ∈ (m.client i).start) : (m.goto i c).Sequential where
  begun j t ht := by
    by_cases hji : j = i
    · subst hji
      rw [client_goto_self] at ht
      rcases hc t ht with rfl | ht
      · exact Nat.lt_succ_self _
      · exact (h.begun j t ht).trans (Nat.lt_succ_self _)
    · rw [client_goto_of_ne m c hji] at ht
      exact (h.begun j t ht).trans (Nat.lt_succ_self _)
  returned call hcall := by
    obtain ⟨t, hstop, hle, hlt⟩ := h.returned call hcall
    exact ⟨t, hstop, hle, hlt.trans (Nat.lt_succ_self _)⟩
  ordered := h.ordered
  running j t ht call hcall hclient := by
    by_cases hji : j = i
    · subst hji
      rw [client_goto_self] at ht
      rcases hc t ht with rfl | ht
      · obtain ⟨u, hstop, -, hlt⟩ := h.returned call hcall
        exact ⟨u, hstop, hlt⟩
      · exact h.running j t ht call hcall hclient
    · rw [client_goto_of_ne m c hji] at ht
      exact h.running j t ht call hcall hclient

theorem Sequential.step (h : m.Sequential) (hstep : Step m m') : m'.Sequential := by
  cases hstep with
  | call input hi => exact h.goto fun t ht => Or.inl (Option.some.inj ht).symm
  | @number i key value start n hi hn =>
    have hgoto := h.goto (i := i) (c := .numbered ⟨key, n, value⟩ start) fun t ht =>
      Or.inr (by rwa [hi])
    exact ⟨hgoto.begun, hgoto.returned, hgoto.ordered, hgoto.running⟩
  | @publish i v start hi =>
    have hgoto := h.goto (i := i) (c := .answered (.put v.key v.value) none start) fun t ht =>
      Or.inr (by rwa [hi])
    exact ⟨hgoto.begun, hgoto.returned, hgoto.ordered, hgoto.running⟩
  | read hi => exact h.goto fun t ht => Or.inr (by rwa [hi])
  | giveUp => exact h.goto fun t ht => (by cases ht)
  | wait hlast =>
    refine ⟨fun i t ht => (h.begun i t ht).trans (Nat.lt_succ_self _), fun c hc => ?_, h.ordered,
      h.running⟩
    obtain ⟨t, hstop, hle, hlt⟩ := h.returned c hc
    exact ⟨t, hstop, hle, hlt.trans (Nat.lt_succ_self _)⟩
  | @ret i input output start hi =>
    have hgoto := h.goto (i := i) (c := .idle) fun t ht => (by cases ht)
    have hstart : start ∈ (m.client i).start := by
      rw [hi]
      rfl
    refine ⟨hgoto.begun, fun c hc => ?_, ?_, fun j t ht c hc hclient => ?_⟩
    · rcases List.mem_append.mp hc with hc | hc
      · exact hgoto.returned c hc
      · rw [List.mem_singleton.mp hc]
        exact ⟨m.clock, rfl, (h.begun i start hstart).le, Nat.lt_succ_self _⟩
    · refine List.pairwise_append.mpr ⟨h.ordered, List.pairwise_singleton _ _, ?_⟩
      intro a ha b hb hclient
      rw [List.mem_singleton.mp hb] at hclient ⊢
      exact h.running i start hstart a ha hclient
    · rcases List.mem_append.mp hc with hc | hc
      · exact hgoto.running j t ht c hc hclient
      · rw [List.mem_singleton.mp hc] at hclient
        subst hclient
        change t ∈ ((m.goto i .idle).client i).start at ht
        rw [client_goto_self] at ht
        cases ht

end

end VersionedMap

end Lsmkv
