import Mathlib.Data.List.Induction
import Mathlib.Tactic

/-!
# Versioned histories

A `Version` binds a key to a value, or to a tombstone, and carries the sequence number of the
mutation that produced it.  A history is a list of versions; `newest h k` is the version of `k`
with the highest number, and `replay m h` updates the map `m` by `h` in list order.  In a history
whose numbers increase the two agree (`replay_eq_newest`).

A search structure answers a key from the first source that holds it, so what it answers is the
head of a chain of versions.  `Answers c o` says that the chain `c` answers like the newest
version `o`: its head is `o`, or it is empty and `o` is a tombstone that was dropped.
`Represents c h` says so of the chains of all keys and the history `h`; a source put in front of
them adds its own versions to the history (`Represents.overlay`).
-/

namespace Lsmkv

/-- One version of a key: a value, or a tombstone. -/
structure Version (κ ν : Type*) where
  key : κ
  seq : ℕ
  value : Option ν
  deriving DecidableEq, Repr

variable {κ ν : Type*} [DecidableEq κ]

/-- The later of two candidate versions. -/
def Version.later (best : Option (Version κ ν)) (v : Version κ ν) : Option (Version κ ν) :=
  match best with
  | none => some v
  | some b => if b.seq < v.seq then some v else some b

/-- The version of `k` with the highest sequence number. -/
def newest (h : List (Version κ ν)) (k : κ) : Option (Version κ ν) :=
  h.foldl (fun best v => if v.key = k then Version.later best v else best) none

/-- `m` updated by the history, in list order. -/
def replay (m : κ → Option ν) (h : List (Version κ ν)) : κ → Option ν :=
  h.foldl (fun f v => Function.update f v.key v.value) m

/-- Two versions of the history with one sequence number are the same version. -/
def Distinct (h : List (Version κ ν)) : Prop :=
  ∀ v ∈ h, ∀ w ∈ h, v.seq = w.seq → v = w

omit [DecidableEq κ] in
theorem Distinct.mono {g h : List (Version κ ν)} (hd : Distinct h) (hsub : ∀ v ∈ g, v ∈ h) :
    Distinct g :=
  fun v hv w hw hvw => hd v (hsub v hv) w (hsub w hw) hvw

omit [DecidableEq κ] in
/-- A history whose numbers increase has distinct ones. -/
theorem distinct_of_pairwise {h : List (Version κ ν)}
    (hp : h.Pairwise fun v w => v.seq < w.seq) : Distinct h := by
  induction hp with
  | nil => intro v hv; cases hv
  | cons hlt _ ih =>
    intro v hv w hw hvw
    rcases List.mem_cons.mp hv with hv | hv <;> rcases List.mem_cons.mp hw with hw | hw
    · rw [hv, hw]
    · exact absurd (hv ▸ hvw) (hlt w hw).ne
    · exact absurd (hw ▸ hvw) (hlt v hv).ne'
    · exact ih v hv w hw hvw

/-! ### The newest version -/

theorem newest_append_singleton (h : List (Version κ ν)) (v : Version κ ν) (k : κ) :
    newest (h ++ [v]) k = if v.key = k then Version.later (newest h k) v else newest h k := by
  simp [newest]

@[simp]
theorem newest_nil (k : κ) : newest ([] : List (Version κ ν)) k = none := rfl

theorem newest_eq_none_iff {h : List (Version κ ν)} {k : κ} :
    newest h k = none ↔ ∀ v ∈ h, v.key ≠ k := by
  induction h using List.reverseRecOn with
  | nil => simp
  | append_singleton h v ih =>
    rw [newest_append_singleton]
    split_ifs with hk
    · constructor
      · intro hnone
        unfold Version.later at hnone
        split at hnone
        · cases hnone
        · split_ifs at hnone
      · intro hall
        exact absurd hk (hall v (by simp))
    · rw [ih]
      constructor
      · intro hall w hw
        rcases List.mem_append.mp hw with hw | hw
        · exact hall w hw
        · rw [List.mem_singleton.mp hw]; exact hk
      · intro hall w hw
        exact hall w (List.mem_append_left _ hw)

/-- What `newest` returns is a version of the key, and no version of the key is newer. -/
theorem newest_spec {h : List (Version κ ν)} {k : κ} {v : Version κ ν} (hv : newest h k = some v) :
    v ∈ h ∧ v.key = k ∧ ∀ w ∈ h, w.key = k → w.seq ≤ v.seq := by
  induction h using List.reverseRecOn generalizing v with
  | nil => cases hv
  | append_singleton h x ih =>
    rw [newest_append_singleton] at hv
    split_ifs at hv with hk
    · unfold Version.later at hv
      split at hv
      · rename_i hnone
        obtain rfl := Option.some.inj hv
        refine ⟨by simp, hk, ?_⟩
        intro w hw hwk
        rcases List.mem_append.mp hw with hw | hw
        · exact absurd hwk (newest_eq_none_iff.mp hnone w hw)
        · rw [List.mem_singleton.mp hw]
      · rename_i b hb
        obtain ⟨hmem, hbk, hmax⟩ := ih hb
        split_ifs at hv with hlt
        · obtain rfl := Option.some.inj hv
          refine ⟨by simp, hk, ?_⟩
          intro w hw hwk
          rcases List.mem_append.mp hw with hw | hw
          · exact (hmax w hw hwk).trans hlt.le
          · rw [List.mem_singleton.mp hw]
        · obtain rfl := Option.some.inj hv
          refine ⟨List.mem_append_left _ hmem, hbk, ?_⟩
          intro w hw hwk
          rcases List.mem_append.mp hw with hw | hw
          · exact hmax w hw hwk
          · rw [List.mem_singleton.mp hw]; omega
    · obtain ⟨hmem, hvk, hmax⟩ := ih hv
      refine ⟨List.mem_append_left _ hmem, hvk, ?_⟩
      intro w hw hwk
      rcases List.mem_append.mp hw with hw | hw
      · exact hmax w hw hwk
      · rw [List.mem_singleton.mp hw] at hwk
        exact absurd hwk hk

/-- With distinct numbers, the newest version is the one no other is newer than. -/
theorem newest_eq_some {h : List (Version κ ν)} {k : κ} {v : Version κ ν} (hd : Distinct h)
    (hmem : v ∈ h) (hk : v.key = k) (hmax : ∀ w ∈ h, w.key = k → w.seq ≤ v.seq) :
    newest h k = some v := by
  cases hn : newest h k with
  | none => exact absurd hk (newest_eq_none_iff.mp hn v hmem)
  | some w =>
    obtain ⟨hw, hwk, hwmax⟩ := newest_spec hn
    rw [hd v hmem w hw (le_antisymm (hwmax v hmem hk) (hmax w hw hwk))]

/-- Only membership matters to the newest version. -/
theorem newest_congr {g h : List (Version κ ν)} {k : κ} (hd : Distinct h)
    (hiff : ∀ v, v.key = k → (v ∈ g ↔ v ∈ h)) : newest g k = newest h k := by
  cases hn : newest g k with
  | none =>
    symm
    rw [newest_eq_none_iff]
    intro v hv hk
    exact newest_eq_none_iff.mp hn v ((hiff v hk).mpr hv) hk
  | some v =>
    obtain ⟨hv, hk, hmax⟩ := newest_spec hn
    exact (newest_eq_some hd ((hiff v hk).mp hv) hk
      fun w hw hwk => hmax w ((hiff w hwk).mpr hw) hwk).symm

/-- What comes later in time hides what came before. -/
theorem newest_append {g h : List (Version κ ν)} (hlt : ∀ v ∈ g, ∀ w ∈ h, v.seq < w.seq) (k : κ) :
    newest (g ++ h) k = (newest h k).or (newest g k) := by
  induction h using List.reverseRecOn with
  | nil => simp
  | append_singleton h x ih =>
    have ih := ih fun v hv w hw => hlt v hv w (List.mem_append_left _ hw)
    rw [← List.append_assoc, newest_append_singleton, newest_append_singleton, ih]
    split_ifs with hk
    · cases hh : newest h k with
      | some b =>
        rw [Option.some_or]
        unfold Version.later
        dsimp only
        split_ifs <;> rfl
      | none =>
        rw [Option.none_or]
        cases hg : newest g k with
        | none => rfl
        | some b =>
          have hb := hlt b (newest_spec hg).1 x (by simp)
          exact if_pos hb
    · rfl

/-! ### Replay -/

theorem replay_append (m : κ → Option ν) (g h : List (Version κ ν)) :
    replay m (g ++ h) = replay (replay m g) h := List.foldl_append

/-- The chain answers like the newest version `o`: its head is `o`, or it is empty and `o` is a
tombstone. -/
def Answers (c : List (Version κ ν)) (o : Option (Version κ ν)) : Prop :=
  c.head? = o ∨ c = [] ∧ ∃ v, o = some v ∧ v.value = none

omit [DecidableEq κ] in
/-- A chain that answers like `o` has the value of `o`. -/
theorem Answers.value_eq {c : List (Version κ ν)} {o : Option (Version κ ν)} (h : Answers c o) :
    c.head?.bind Version.value = o.bind Version.value := by
  rcases h with h | ⟨rfl, v, rfl, hv⟩
  · rw [h]
  · simp [hv]

/-- Versions in the order a search meets them: a later one is older, or the same again. -/
def Descending (c : List (Version κ ν)) : Prop := c.Pairwise fun v w => w.seq < v.seq ∨ v = w

/-- `c'` is what a rewrite may leave of the chain `c`: a part of it with the same head, or nothing
where the head was a tombstone. -/
def Shrinks (c' c : List (Version κ ν)) : Prop :=
  c'.Sublist c ∧ (c'.head? = c.head? ∨ c' = [] ∧ ∃ v, c.head? = some v ∧ v.value = none)

section

omit [DecidableEq κ]

variable {c c' : List (Version κ ν)}

theorem Shrinks.refl (c : List (Version κ ν)) : Shrinks c c := ⟨List.Sublist.refl c, Or.inl rfl⟩

/-- What is searched first can be put in front. -/
theorem Shrinks.append_left (h : Shrinks c' c) (p : List (Version κ ν)) :
    Shrinks (p ++ c') (p ++ c) := by
  obtain ⟨hsub, hhead⟩ := h
  refine ⟨(List.append_sublist_append_left p).mpr hsub, ?_⟩
  cases p with
  | nil => exact hhead
  | cons v p => exact Or.inl rfl

/-- A rewrite does not change the answer. -/
theorem Answers.shrink {o : Option (Version κ ν)} (h : Answers c o) (hs : Shrinks c' c) :
    Answers c' o := by
  obtain ⟨hsub, hhead⟩ := hs
  rcases h with h | ⟨rfl, hdead⟩
  · rcases hhead with hhead | ⟨rfl, v, hv, hvalue⟩
    · exact Or.inl (hhead.trans h)
    · exact Or.inr ⟨rfl, v, h ▸ hv, hvalue⟩
  · exact Or.inr ⟨List.sublist_nil.mp hsub, hdead⟩

theorem Descending.shrink (h : Descending c) (hs : Shrinks c' c) : Descending c' :=
  List.Pairwise.sublist hs.1 h

/-- Several versions in a row are replaced by the first of them. -/
theorem shrinks_merge (p q : List (Version κ ν)) {s : List (Version κ ν)} {v : Version κ ν}
    (hv : s.head? = some v) : Shrinks (p ++ ([v] ++ q)) (p ++ (s ++ q)) := by
  refine Shrinks.append_left ⟨?_, ?_⟩ p
  · cases s with
    | nil => cases hv
    | cons w s =>
      obtain rfl := Option.some.inj hv
      exact ((List.nil_sublist s).cons_cons w).append (List.Sublist.refl q)
  · cases s with
    | nil => cases hv
    | cons w s => exact Or.inl hv.symm

/-- The versions at the end of a chain are dropped when the first of them is a tombstone. -/
theorem shrinks_drop (p : List (Version κ ν)) {s : List (Version κ ν)} {v : Version κ ν}
    (hv : s.head? = some v) (hvalue : v.value = none) : Shrinks p (p ++ s) := by
  have h : Shrinks [] s := ⟨List.nil_sublist s, Or.inr ⟨rfl, v, hv, hvalue⟩⟩
  simpa using h.append_left p

end

/-! ### Search structures -/

/-- The chains answer every key as the history does, and hold nothing else. -/
def Represents (c : κ → List (Version κ ν)) (h : List (Version κ ν)) : Prop :=
  ∀ k, Answers (c k) (newest h k) ∧ Descending (c k) ∧ ∀ v ∈ c k, v ∈ h ∧ v.key = k

namespace Represents

variable {c c' : κ → List (Version κ ν)} {g h : List (Version κ ν)}

theorem nil : Represents (fun _ : κ => ([] : List (Version κ ν))) [] :=
  fun _ => ⟨Or.inl rfl, List.Pairwise.nil, fun _ hv => nomatch hv⟩

/-- A search of the chains answers with the newest version. -/
theorem value_eq (hr : Represents c h) (k : κ) :
    (c k).head?.bind Version.value = (newest h k).bind Version.value := (hr k).1.value_eq

/-- A rewrite of the chains keeps what they represent. -/
theorem shrink (hr : Represents c h) (hs : ∀ k, Shrinks (c' k) (c k)) : Represents c' h := by
  intro k
  obtain ⟨hanswers, hdesc, hmem⟩ := hr k
  exact ⟨hanswers.shrink (hs k), hdesc.shrink (hs k), fun v hv => hmem v ((hs k).1.subset hv)⟩

/-- **A newer source in front.**  The chains represent a history between `base` and `base ++ seg`;
a source that finds the newest versions of `seg`, which is newer than `base`, completes it. -/
theorem overlay {base seg : List (Version κ ν)} (hr : Represents c g)
    (hbase : ∀ v ∈ base, v ∈ g) (hg : ∀ v ∈ g, v ∈ base ∨ v ∈ seg)
    (hlt : ∀ v ∈ base, ∀ w ∈ seg, v.seq < w.seq) (hd : Distinct (base ++ seg))
    {find : κ → Option (Version κ ν)} (hfind : ∀ k, find k = newest seg k) :
    Represents (fun k => (find k).toList ++ c k) (base ++ seg) := by
  intro k
  obtain ⟨hanswers, hdesc, hmem⟩ := hr k
  have hold : ∀ v ∈ c k, v ∈ base ++ seg ∧ v.key = k := fun v hv =>
    ⟨List.mem_append.mpr (hg v (hmem v hv).1), (hmem v hv).2⟩
  dsimp only
  rw [hfind, newest_append hlt]
  cases hn : newest seg k with
  | some v =>
    obtain ⟨hv, hvk, hmax⟩ := newest_spec hn
    refine ⟨Or.inl rfl, List.pairwise_cons.mpr ⟨fun w hw => ?_, hdesc⟩, ?_⟩
    · -- an equal number can only be the same version, found again further down
      rcases List.mem_append.mp (hold w hw).1 with hwb | hws
      · exact Or.inl (hlt w hwb v hv)
      · rcases (hmax w hws (hold w hw).2).lt_or_eq with hlt' | heq
        · exact Or.inl hlt'
        · exact Or.inr (hd v (List.mem_append_right _ hv) w (List.mem_append_right _ hws) heq.symm)
    · intro w hw
      rcases List.mem_cons.mp hw with rfl | hw
      · exact ⟨List.mem_append_right _ hv, hvk⟩
      · exact hold w hw
  | none =>
    rw [Option.none_or]
    refine ⟨?_, hdesc, hold⟩
    have hsame : newest g k = newest base k := by
      refine newest_congr (hd.mono fun v => List.mem_append_left _) fun v hvk =>
        ⟨fun hv => ?_, hbase v⟩
      rcases hg v hv with hv | hv
      · exact hv
      · exact absurd hvk (newest_eq_none_iff.mp hn v hv)
    rwa [hsame] at hanswers

end Represents

end Lsmkv
