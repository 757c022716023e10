import Lsmkv.Lib.Rounding
import Lsmkv.Manifest

/-!
# Picking what to compact (`compaction.rs`)

Level 0 is measured by its number of files, deeper levels by their bytes against a budget, and the
level furthest past its limit is drained into the next one.  `ratio` converts a count or a byte
total and its limit to `f64` and divides, so both conversions and the quotient are rounded to 53
bits; no score is near the ends of the exponent range of an `f64`, since both operands are `u64`.

`mem_inputsFor` is what the engine relies on: the inputs are files of the snapshot, at the level
and at the one below, all of level 0 or one file of a deeper level, and the files of the level
below that stay are those whose range does not meet the range of the others.

Which level is drained is proved for any way of computing scores (`picks_chosenBy`).
`plan_progress_iff` says for which settings every plan has a file to drain.
-/

namespace Lsmkv

/-- What a compaction will do. -/
structure Plan where
  level : ℕ
  inputs : List FileMeta
  deriving DecidableEq, Repr

namespace Plan

/-- Level the merged output is written to. -/
def outputLevel (p : Plan) : ℕ := p.level + 1

/-- Numbers of the files this compaction consumes. -/
def inputNumbers (p : Plan) : List ℕ := p.inputs.map FileMeta.number

end Plan

namespace Compaction

/-- `u64` arithmetic that stops at the largest value. -/
def saturate (n : ℕ) : ℕ := min n (u64Limit - 1)

/-- Byte budget of a level below the first. -/
def budget (level levelBytes fanout : ℕ) : ℕ :=
  saturate (levelBytes * saturate (fanout ^ (min level (u32Limit - 1) - 1)))

/-- Significant bits of an `f64`. -/
def f64Bits : ℕ := 53

/-- `n as f64`. -/
def asF64 (n : ℕ) : ℚ := roundTo f64Bits n

/-- How far past its limit a level sits, in `f64` arithmetic. -/
def ratio (value limit : ℕ) : WithTop ℚ :=
  if limit = 0 then ⊤ else ((roundTo f64Bits (asF64 value / asF64 limit) : ℚ) : WithTop ℚ)

/-- Key range covering every file in `files`. -/
def rangeOf (files : List FileMeta) : Bytes × Bytes :=
  ((files.map FileMeta.minKey).min?.getD [], (files.map FileMeta.maxKey).max?.getD [])

/-- The files of `level` that a compaction drains: all of level 0, or the file of a deeper level
that has been waiting longest. -/
def drained (snapshot : Snapshot) (level : ℕ) : List FileMeta :=
  if level = 0 then snapshot.atLevel 0
  else ((snapshot.atLevel level).argmin FileMeta.number).toList

/-- The files a compaction of `level` consumes. -/
def inputsFor (snapshot : Snapshot) (level : ℕ) : List FileMeta :=
  let inputs := drained snapshot level
  let (min, max) := rangeOf inputs
  let overlapping := (snapshot.atLevel (level + 1)).filter fun file => file.overlaps min max
  inputs ++ overlapping

/-- Chooses the level most in need of a compaction, or `none` if none is. -/
def plan (snapshot : Snapshot) (l0Trigger levelBytes fanout : ℕ) : Option Plan :=
  let l0Files := (snapshot.atLevel 0).length
  let start : Option ℕ × WithTop ℚ :=
    if l0Trigger ≤ l0Files ∧ 0 < l0Trigger then (some 0, ratio l0Files l0Trigger) else (none, 1)
  let (chosen, _) := (List.range' 1 snapshot.deepestLevel).foldl
    (fun (chosen, best) level =>
      let score := ratio (snapshot.bytesAtLevel level) (budget level levelBytes fanout)
      if best < score then (some level, score) else (chosen, best)) start
  chosen.map fun level => ⟨level, inputsFor snapshot level⟩

/-- Whether a tombstone has to be written out rather than dropped. -/
def tombstoneNeeded (snapshot : Snapshot) (outputLevel : ℕ) (key : Bytes) : Bool :=
  snapshot.files.any fun file => outputLevel < file.level && file.covers key

/-! ### What a plan consumes -/

theorem plan_inputs {snapshot : Snapshot} {l0Trigger levelBytes fanout : ℕ} {p : Plan}
    (h : plan snapshot l0Trigger levelBytes fanout = some p) :
    p.inputs = inputsFor snapshot p.level := by
  unfold plan at h
  dsimp only at h
  rw [Option.map_eq_some_iff] at h
  obtain ⟨level, -, rfl⟩ := h
  rfl

theorem mem_drained {snapshot : Snapshot} {level : ℕ} {file : FileMeta}
    (h : file ∈ drained snapshot level) : file ∈ snapshot.files ∧ file.level = level := by
  unfold drained at h
  split_ifs at h with hlevel
  · rw [hlevel]
    exact Snapshot.mem_atLevel.mp h
  · exact Snapshot.mem_atLevel.mp (List.argmin_mem (Option.mem_toList.mp h))

theorem drained_zero (snapshot : Snapshot) : drained snapshot 0 = snapshot.atLevel 0 := if_pos rfl

/-- The inputs are files of the snapshot at the level drained or at the one below. -/
theorem mem_inputsFor {snapshot : Snapshot} {level : ℕ} {file : FileMeta} :
    file ∈ inputsFor snapshot level ↔ file ∈ drained snapshot level
      ∨ file ∈ snapshot.atLevel (level + 1)
        ∧ file.overlaps (rangeOf (drained snapshot level)).1 (rangeOf (drained snapshot level)).2
          = true := by
  simp [inputsFor]

theorem inputsFor_subset {snapshot : Snapshot} {level : ℕ} {file : FileMeta}
    (h : file ∈ inputsFor snapshot level) :
    file ∈ snapshot.files ∧ (file.level = level ∨ file.level = level + 1) := by
  rcases mem_inputsFor.mp h with h | ⟨h, -⟩
  · exact ⟨(mem_drained h).1, Or.inl (mem_drained h).2⟩
  · obtain ⟨hmem, hlevel⟩ := Snapshot.mem_atLevel.mp h
    exact ⟨hmem, Or.inr hlevel⟩

/-- The range of the files drained holds each of them. -/
theorem rangeOf_le {files : List FileMeta} {file : FileMeta} (h : file ∈ files) :
    (rangeOf files).1 ≤ file.minKey ∧ file.maxKey ≤ (rangeOf files).2 := by
  have hmin : file.minKey ∈ files.map FileMeta.minKey := List.mem_map_of_mem h
  have hmax : file.maxKey ∈ files.map FileMeta.maxKey := List.mem_map_of_mem h
  unfold rangeOf
  constructor
  · cases hm : (files.map FileMeta.minKey).min? with
    | none =>
      rw [List.min?_eq_none_iff] at hm
      rw [hm] at hmin
      cases hmin
    | some least => exact (List.min?_eq_some_iff.mp hm).2 _ hmin
  · cases hm : (files.map FileMeta.maxKey).max? with
    | none =>
      rw [List.max?_eq_none_iff] at hm
      rw [hm] at hmax
      cases hmax
    | some greatest => exact (List.max?_eq_some_iff.mp hm).2 _ hmax

/-! ### Which level a plan drains -/

/-- The fold that keeps the level of the highest score, and the first of several. -/
theorem foldl_choice (score : ℕ → WithTop ℚ) (levels : List ℕ) (chosen : Option ℕ)
    (best : WithTop ℚ) :
    let choice := levels.foldl (fun (p : Option ℕ × WithTop ℚ) level =>
      if p.2 < score level then (some level, score level) else p) (chosen, best)
    choice = (chosen, best) ∧ (∀ level ∈ levels, score level ≤ best)
      ∨ ∃ before level behind, levels = before ++ level :: behind
        ∧ choice = (some level, score level) ∧ best < score level
        ∧ (∀ k ∈ before, score k < score level) ∧ ∀ k ∈ behind, score k ≤ score level := by
  induction levels generalizing chosen best with
  | nil => exact Or.inl ⟨rfl, by simp⟩
  | cons level levels ih =>
    dsimp only
    rw [List.foldl_cons]
    by_cases hlt : best < score level
    · rw [if_pos hlt]
      rcases ih (some level) (score level) with ⟨heq, hle⟩ | ⟨before, k, behind, rfl, heq,
        hbest, hb, ha⟩
      · exact Or.inr ⟨[], level, levels, rfl, heq, hlt, by simp, hle⟩
      · exact Or.inr ⟨level :: before, k, behind, rfl, heq, hlt.trans hbest,
          List.forall_mem_cons.mpr ⟨hbest, hb⟩, ha⟩
    · rw [if_neg hlt]
      rcases ih chosen best with ⟨heq, hle⟩ | ⟨before, k, behind, rfl, heq, hbest, hb, ha⟩
      · exact Or.inl ⟨heq, List.forall_mem_cons.mpr ⟨not_lt.mp hlt, hle⟩⟩
      · exact Or.inr ⟨level :: before, k, behind, rfl, heq, hbest,
          List.forall_mem_cons.mpr ⟨(not_lt.mp hlt).trans_lt hbest, hb⟩, ha⟩

/-- Level 0 has as many files as its trigger. -/
def Triggered (snapshot : Snapshot) (l0Trigger : ℕ) : Prop :=
  l0Trigger ≤ (snapshot.atLevel 0).length ∧ 0 < l0Trigger

instance (snapshot : Snapshot) (l0Trigger : ℕ) : Decidable (Triggered snapshot l0Trigger) :=
  inferInstanceAs (Decidable (_ ∧ _))

/-- The score of a level, with `score` for the quotient and `bytes` for the total of a level.
Level 0 counts from its trigger on. -/
def levelScore (score : ℕ → ℕ → WithTop ℚ) (bytes : Snapshot → ℕ → ℕ) (snapshot : Snapshot)
    (l0Trigger levelBytes fanout level : ℕ) : WithTop ℚ :=
  if level = 0 then
    if Triggered snapshot l0Trigger then score (snapshot.atLevel 0).length l0Trigger else 1
  else score (bytes snapshot level) (budget level levelBytes fanout)

/-- The level asks for a compaction: level 0 from its trigger on, a deeper one past its limit. -/
def Past (score : ℕ → WithTop ℚ) (triggered : Prop) (level : ℕ) : Prop :=
  level = 0 ∧ triggered ∨ 1 ≤ level ∧ 1 < score level

/-- The first level that no score exceeds, provided that it asks for a compaction. -/
inductive Picks (score : ℕ → WithTop ℚ) (triggered : Prop) (deepest : ℕ) : Option ℕ → Prop
  | nothing (htrigger : ¬ triggered) (hle : ∀ level ≤ deepest, score level ≤ 1) :
    Picks score triggered deepest none
  | level {level : ℕ} (hdeepest : level ≤ deepest) (hpast : Past score triggered level)
    (hfirst : ∀ k < level, score k < score level) (hle : ∀ k ≤ deepest, score k ≤ score level) :
    Picks score triggered deepest (some level)

theorem Picks.eq_none_iff {score : ℕ → WithTop ℚ} {triggered : Prop} {deepest : ℕ}
    {chosen : Option ℕ} (h : Picks score triggered deepest chosen) :
    chosen = none ↔ ∀ level ≤ deepest, ¬ Past score triggered level := by
  cases h with
  | nothing htrigger hle =>
    refine ⟨fun _ level hlevel => ?_, fun _ => rfl⟩
    rintro (⟨-, h⟩ | ⟨-, h⟩)
    · exact htrigger h
    · exact absurd h (hle level hlevel).not_gt
  | level hdeepest hpast hfirst hle =>
    exact ⟨fun h => (by cases h), fun h => absurd hpast (h _ hdeepest)⟩

/-- The loop of `plan` leaves the first level of the highest score. -/
theorem picks_foldl {score : ℕ → WithTop ℚ} {triggered : Prop} [Decidable triggered]
    (hzero : triggered ∧ 1 ≤ score 0 ∨ ¬ triggered ∧ score 0 = 1) (deepest : ℕ) :
    Picks score triggered deepest ((List.range' 1 deepest).foldl
      (fun (p : Option ℕ × WithTop ℚ) level =>
        if p.2 < score level then (some level, score level) else p)
      (if triggered then some 0 else none, score 0)).1 := by
  have hmem : ∀ level, level ∈ List.range' 1 deepest ↔ 1 ≤ level ∧ level ≤ deepest :=
    fun level => by
      rw [List.mem_range'_1]
      omega
  have hone : 1 ≤ score 0 := hzero.elim And.right fun h => h.2.ge
  rcases foldl_choice score (List.range' 1 deepest) (if triggered then some 0 else none) (score 0)
    with ⟨heq, hle⟩ | ⟨before, level, behind, hsplit, heq, hlt, hbefore, hbehind⟩
  · -- no deeper level is ahead of level 0
    have hall : ∀ k ≤ deepest, score k ≤ score 0 := by
      intro k hk
      rcases Nat.eq_zero_or_pos k with rfl | hpos
      · exact le_rfl
      · exact hle k ((hmem k).mpr ⟨hpos, hk⟩)
    rw [heq]
    rcases hzero with ⟨htrigger, -⟩ | ⟨htrigger, h1⟩
    · rw [if_pos htrigger]
      exact .level deepest.zero_le (Or.inl ⟨rfl, htrigger⟩) (fun k hk => absurd hk k.not_lt_zero)
        hall
    · rw [if_neg htrigger]
      exact .nothing htrigger fun k hk => (hall k hk).trans h1.le
  · have hrange := (hmem level).mp (by rw [hsplit]; simp)
    have hcases : ∀ k ≤ deepest, k = 0 ∨ k ∈ before ∨ k = level ∨ k ∈ behind := by
      intro k hk
      rcases Nat.eq_zero_or_pos k with rfl | hpos
      · exact Or.inl rfl
      · have := (hmem k).mpr ⟨hpos, hk⟩
        rw [hsplit, List.mem_append, List.mem_cons] at this
        exact Or.inr this
    have hsorted := @List.pairwise_lt_range' 1 deepest 1 Nat.one_pos
    rw [hsplit] at hsorted
    obtain ⟨-, hright, -⟩ := List.pairwise_append.mp hsorted
    rw [heq]
    refine .level hrange.2 (Or.inr ⟨hrange.1, hone.trans_lt hlt⟩) (fun k hk => ?_) fun k hk => ?_
    · rcases hcases k (hk.le.trans hrange.2) with rfl | h | rfl | h
      · exact hlt
      · exact hbefore k h
      · exact absurd hk (lt_irrefl k)
      · exact absurd ((List.pairwise_cons.mp hright).1 k h) (by omega)
    · rcases hcases k hk with rfl | h | rfl | h
      · exact hlt.le
      · exact (hbefore k h).le
      · exact le_rfl
      · exact hbehind k h

/-- The level the loop chooses, with `score` for the quotient and `bytes` for the total of a
level. -/
def chosenBy (score : ℕ → ℕ → WithTop ℚ) (bytes : Snapshot → ℕ → ℕ) (snapshot : Snapshot)
    (l0Trigger levelBytes fanout : ℕ) : Option ℕ :=
  ((List.range' 1 snapshot.deepestLevel).foldl
    (fun (p : Option ℕ × WithTop ℚ) level =>
      if p.2 < score (bytes snapshot level) (budget level levelBytes fanout) then
        (some level, score (bytes snapshot level) (budget level levelBytes fanout)) else p)
    (if Triggered snapshot l0Trigger then (some 0, score (snapshot.atLevel 0).length l0Trigger)
      else (none, 1))).1

/-- The loop leaves the first level of the highest score. -/
theorem picks_chosenBy {score : ℕ → ℕ → WithTop ℚ} (bytes : Snapshot → ℕ → ℕ)
    (snapshot : Snapshot) (l0Trigger levelBytes fanout : ℕ)
    (hone : ∀ {value limit}, 0 < limit → limit ≤ value → 1 ≤ score value limit) :
    Picks (levelScore score bytes snapshot l0Trigger levelBytes fanout)
      (Triggered snapshot l0Trigger) snapshot.deepestLevel
      (chosenBy score bytes snapshot l0Trigger levelBytes fanout) := by
  have hzero : Triggered snapshot l0Trigger
        ∧ 1 ≤ levelScore score bytes snapshot l0Trigger levelBytes fanout 0
      ∨ ¬ Triggered snapshot l0Trigger
        ∧ levelScore score bytes snapshot l0Trigger levelBytes fanout 0 = 1 := by
    unfold levelScore
    rw [if_pos rfl]
    by_cases htrigger : Triggered snapshot l0Trigger
    · rw [if_pos htrigger]
      exact Or.inl ⟨htrigger, hone htrigger.2 htrigger.1⟩
    · exact Or.inr ⟨htrigger, if_neg htrigger⟩
  have hstart : (if Triggered snapshot l0Trigger then
        (some 0, score (snapshot.atLevel 0).length l0Trigger) else (none, 1))
      = (if Triggered snapshot l0Trigger then some 0 else none,
          levelScore score bytes snapshot l0Trigger levelBytes fanout 0) := by
    unfold levelScore
    rw [if_pos rfl]
    split_ifs <;> rfl
  have hlevel : ∀ level ∈ List.range' 1 snapshot.deepestLevel,
      score (bytes snapshot level) (budget level levelBytes fanout)
        = levelScore score bytes snapshot l0Trigger levelBytes fanout level := by
    intro level hmem
    have hpos : level ≠ 0 := by
      rw [List.mem_range'_1] at hmem
      omega
    rw [levelScore, if_neg hpos]
  have hpicks := picks_foldl hzero snapshot.deepestLevel
  unfold chosenBy
  rw [hstart, List.foldl_ext _ _ _ fun p level hmem => by rw [hlevel level hmem]]
  exact hpicks

/-- The score of a level as `plan` computes it. -/
def score : Snapshot → ℕ → ℕ → ℕ → ℕ → WithTop ℚ := levelScore ratio Snapshot.bytesAtLevel

theorem plan_eq_chosenBy (snapshot : Snapshot) (l0Trigger levelBytes fanout : ℕ) :
    plan snapshot l0Trigger levelBytes fanout
      = (chosenBy ratio Snapshot.bytesAtLevel snapshot l0Trigger levelBytes fanout).map fun level =>
        ⟨level, inputsFor snapshot level⟩ := rfl

/-! ### The rounded quotient -/

section Ratio

variable {value limit : ℕ}

theorem asF64_mono (h : value ≤ limit) : asF64 value ≤ asF64 limit :=
  roundTo_mono (by decide) value.cast_nonneg (by exact_mod_cast h)

theorem asF64_pos (h : 0 < value) : 0 < asF64 value :=
  roundTo_pos (by decide) (by exact_mod_cast h)

theorem asF64_nonneg (value : ℕ) : 0 ≤ asF64 value := by
  rcases value.eq_zero_or_pos with rfl | hpos
  · rw [asF64, Nat.cast_zero, roundTo_zero]
  · exact (asF64_pos hpos).le

theorem roundTo_one : roundTo f64Bits (1 : ℚ) = 1 := by
  have h := roundTo_natCast (K := ℚ) (p := f64Bits) (n := 1) (by decide) (by decide)
  rwa [Nat.cast_one] at h

/-- A level that has reached its limit scores one at least. -/
theorem one_le_ratio (hpos : 0 < limit) (h : limit ≤ value) : 1 ≤ ratio value limit := by
  have hquot : (1 : ℚ) ≤ asF64 value / asF64 limit := by
    rw [le_div_iff₀ (asF64_pos hpos), one_mul]
    exact asF64_mono h
  have hround : 1 ≤ roundTo f64Bits (asF64 value / asF64 limit) := by
    rw [← roundTo_one]
    exact roundTo_mono (by decide) zero_le_one hquot
  rw [ratio, if_neg hpos.ne']
  exact_mod_cast hround

/-- A level within its limit scores one at most. -/
theorem ratio_le_one (hpos : 0 < limit) (h : value ≤ limit) : ratio value limit ≤ 1 := by
  have hquot : asF64 value / asF64 limit ≤ 1 := by
    rw [div_le_iff₀ (asF64_pos hpos), one_mul]
    exact asF64_mono h
  have hround : roundTo f64Bits (asF64 value / asF64 limit) ≤ 1 := by
    rw [← roundTo_one]
    exact roundTo_mono (by decide) (div_nonneg (asF64_nonneg _) (asF64_nonneg _)) hquot
  rw [ratio, if_neg hpos.ne']
  exact_mod_cast hround

/-- A level that is past its limit holds something, unless its limit is zero. -/
theorem pos_of_one_lt_ratio (h : 1 < ratio value limit) : limit = 0 ∨ limit < value := by
  by_contra hnot
  exact absurd h (ratio_le_one (by omega) (by omega)).not_gt

theorem ratio_eq_top : ratio value limit = ⊤ ↔ limit = 0 := by
  unfold ratio
  split_ifs with hzero
  · simp [hzero]
  · simp [hzero]

end Ratio

/-! ### Whether a plan makes progress -/

theorem saturate_eq_zero {n : ℕ} : saturate n = 0 ↔ n = 0 := by
  have : u64Limit - 1 ≠ 0 := by decide
  unfold saturate
  omega

/-- The limit of a level is zero when level 1 has none, or when it does not grow with the levels. -/
theorem budget_eq_zero {level levelBytes fanout : ℕ} (hlevel : 1 ≤ level) :
    budget level levelBytes fanout = 0 ↔ levelBytes = 0 ∨ fanout = 0 ∧ 2 ≤ level := by
  have hlimit : 2 < u32Limit - 1 := by decide
  rw [budget, saturate_eq_zero, mul_eq_zero, saturate_eq_zero, pow_eq_zero_iff']
  omega

/-- The level of a plan is the one that the loop leaves. -/
theorem picks_plan {snapshot : Snapshot} {l0Trigger levelBytes fanout : ℕ} {p : Plan}
    (h : plan snapshot l0Trigger levelBytes fanout = some p) :
    Picks (score snapshot l0Trigger levelBytes fanout) (Triggered snapshot l0Trigger)
      snapshot.deepestLevel (some p.level) := by
  have hpicks :=
    picks_chosenBy Snapshot.bytesAtLevel snapshot l0Trigger levelBytes fanout one_le_ratio
  rw [plan_eq_chosenBy] at h
  obtain ⟨level, hlevel, rfl⟩ := Option.map_eq_some_iff.mp h
  rwa [hlevel] at hpicks

/-- A level without a limit is past it, and no level behind the first of them is chosen. -/
theorem plan_level_of_budget {snapshot : Snapshot} {l0Trigger levelBytes fanout : ℕ} {p : Plan}
    (h : plan snapshot l0Trigger levelBytes fanout = some p) {level : ℕ} (hpos : 1 ≤ level)
    (hdeepest : level ≤ snapshot.deepestLevel) (hzero : budget level levelBytes fanout = 0) :
    1 ≤ p.level ∧ p.level ≤ level ∧ budget p.level levelBytes fanout = 0 := by
  have htop : score snapshot l0Trigger levelBytes fanout level = ⊤ := by
    rw [score, levelScore, if_neg (by omega), ratio_eq_top]
    exact hzero
  cases picks_plan h with
  | level _ hpast hfirst hle =>
    have hmax := hle level hdeepest
    rw [htop, top_le_iff] at hmax
    have hbefore : p.level ≤ level := by
      by_contra hlt
      have hless := hfirst level (not_le.mp hlt)
      rw [htop] at hless
      exact absurd hless not_top_lt
    rcases hpast with ⟨hlevel, htrigger⟩ | ⟨hlevel, -⟩
    · -- the score of level 0 is finite
      rw [hlevel, score, levelScore, if_pos rfl, if_pos htrigger, ratio_eq_top] at hmax
      exact absurd hmax htrigger.2.ne'
    · rw [score, levelScore, if_neg (by omega), ratio_eq_top] at hmax
      exact ⟨hlevel, hbefore, hmax⟩

theorem drained_eq_nil {snapshot : Snapshot} {level : ℕ} :
    drained snapshot level = [] ↔ snapshot.atLevel level = [] := by
  unfold drained
  split_ifs with hlevel
  · rw [hlevel]
  · rw [Option.toList_eq_nil_iff, List.argmin_eq_none]

/-- The inputs of a compaction, told apart by their level. -/
theorem filter_inputsFor (snapshot : Snapshot) (level : ℕ) :
    (inputsFor snapshot level).filter (fun file => file.level = level) = drained snapshot level
      ∧ (inputsFor snapshot level).filter (fun file => file.level ≠ level)
        = (snapshot.atLevel (level + 1)).filter fun file =>
          file.overlaps (rangeOf (drained snapshot level)).1
            (rangeOf (drained snapshot level)).2 := by
  set below := (snapshot.atLevel (level + 1)).filter fun file =>
    file.overlaps (rangeOf (drained snapshot level)).1 (rangeOf (drained snapshot level)).2
  have hinputs : inputsFor snapshot level = drained snapshot level ++ below := rfl
  have hown : ∀ file ∈ drained snapshot level, file.level = level := fun file hfile =>
    (mem_drained hfile).2
  have hbelow : ∀ file ∈ below, file.level ≠ level := fun file hfile => by
    rw [(Snapshot.mem_atLevel.mp (List.mem_of_mem_filter hfile)).2]
    omega
  rw [hinputs, List.filter_append, List.filter_append]
  constructor
  · rw [List.filter_eq_self.mpr (by simpa using hown), List.filter_eq_nil_iff.mpr
      (by simpa using hbelow), List.append_nil]
  · rw [List.filter_eq_nil_iff.mpr (by simpa using hown),
      List.filter_eq_self.mpr (by simpa using hbelow), List.nil_append]

/-- A plan has a file of its level exactly when the level holds one. -/
theorem exists_input_iff {snapshot : Snapshot} {l0Trigger levelBytes fanout : ℕ} {p : Plan}
    (h : plan snapshot l0Trigger levelBytes fanout = some p) :
    (∃ file ∈ p.inputs, file.level = p.level) ↔ snapshot.atLevel p.level ≠ [] := by
  have hown := (filter_inputsFor snapshot p.level).1
  rw [← plan_inputs h] at hown
  rw [ne_eq, ← drained_eq_nil, ← hown, List.filter_eq_nil_iff]
  simp

/-- A level that is past a limit holds a file. -/
theorem atLevel_ne_nil {snapshot : Snapshot} {limit level : ℕ}
    (h : 1 < ratio (snapshot.bytesAtLevel level) limit) (hlimit : limit ≠ 0) :
    snapshot.atLevel level ≠ [] := by
  intro hempty
  have hbytes : snapshot.bytesAtLevel level = 0 := by
    rw [Snapshot.bytesAtLevel, Snapshot.exactBytesAtLevel, hempty]
    rfl
  rcases pos_of_one_lt_ratio h with hzero | hlt
  · exact hlimit hzero
  · omega

/-- **When a plan makes progress.**  The inputs of a plan are files of its level and the files of
the level below that meet their range; there is a file of its level exactly when the first level
that has no limit, if the store reaches it, holds one. -/
theorem plan_progress_iff {snapshot : Snapshot} {l0Trigger levelBytes fanout : ℕ} {p : Plan}
    (h : plan snapshot l0Trigger levelBytes fanout = some p) :
    (∃ file ∈ p.inputs, file.level = p.level)
        ∧ (let (min, max) := rangeOf (p.inputs.filter fun file => file.level = p.level)
          p.inputs.filter (fun file => file.level ≠ p.level)
            = (snapshot.atLevel (p.level + 1)).filter fun file => file.overlaps min max)
      ↔ (levelBytes = 0 → 1 ≤ snapshot.deepestLevel → snapshot.atLevel 1 ≠ [])
        ∧ (levelBytes ≠ 0 → fanout = 0 → 2 ≤ snapshot.deepestLevel → snapshot.atLevel 2 ≠ []) := by
  obtain ⟨hown, hbelow⟩ := filter_inputsFor snapshot p.level
  rw [← plan_inputs h] at hown hbelow
  rw [hown, hbelow, and_iff_left rfl, exists_input_iff h]
  -- the first level without a limit is the one chosen
  have hfirst : levelBytes = 0 → 1 ≤ snapshot.deepestLevel → p.level = 1 := by
    intro hzero hdeepest
    obtain ⟨hpos, hle, -⟩ := plan_level_of_budget h le_rfl hdeepest
      ((budget_eq_zero le_rfl).mpr (Or.inl hzero))
    omega
  have hsecond : levelBytes ≠ 0 → fanout = 0 → 2 ≤ snapshot.deepestLevel → p.level = 2 := by
    intro hbytes hfanout hdeepest
    obtain ⟨hpos, hle, hzero⟩ := plan_level_of_budget h one_le_two hdeepest
      ((budget_eq_zero one_le_two).mpr (Or.inr ⟨hfanout, le_rfl⟩))
    have := (budget_eq_zero hpos).mp hzero
    omega
  constructor
  · intro hne
    exact ⟨fun h1 h2 => hfirst h1 h2 ▸ hne, fun h1 h2 h3 => hsecond h1 h2 h3 ▸ hne⟩
  · rintro ⟨hone, htwo⟩
    cases picks_plan h with
    | level hdeepest hpast _ _ =>
      rcases hpast with ⟨hzero, hfiles, htrigger⟩ | ⟨hpos, hscore⟩
      · rw [hzero]
        exact List.ne_nil_of_length_pos (htrigger.trans_le hfiles)
      · by_cases hlimit : budget p.level levelBytes fanout = 0
        · rcases (budget_eq_zero hpos).mp hlimit with hbytes | ⟨hfanout, hdeep⟩
          · rw [hfirst hbytes (hpos.trans hdeepest)]
            exact hone hbytes (hpos.trans hdeepest)
          · by_cases hbytes : levelBytes = 0
            · rw [hfirst hbytes (hpos.trans hdeepest)]
              exact hone hbytes (hpos.trans hdeepest)
            · rw [hsecond hbytes hfanout (hdeep.trans hdeepest)]
              exact htwo hbytes hfanout (hdeep.trans hdeepest)
        · rw [score, levelScore, if_neg (by omega)] at hscore
          exact atLevel_ne_nil hscore hlimit

/-- A file of level 2 and nothing above it. -/
def onlyLevelTwo : Snapshot := ⟨[⟨1, 2, [1], [2], 100, 1⟩], 1, 2⟩

theorem plan_progress_iff_level :
    ∃ p, plan onlyLevelTwo 4 1 2 = some p
      ∧ ((∃ file ∈ p.inputs, file.level = p.level)
        ∧ (let (min, max) := rangeOf (p.inputs.filter fun file => file.level = p.level)
          p.inputs.filter (fun file => file.level ≠ p.level)
            = (onlyLevelTwo.atLevel (p.level + 1)).filter fun file => file.overlaps min max)) := by
  have h : plan onlyLevelTwo 4 1 2 = some ⟨2, inputsFor onlyLevelTwo 2⟩ := by
    decide +kernel
  exact ⟨_, h, (plan_progress_iff h).mpr ⟨by decide, by decide⟩⟩

/-- Without a limit for level 1, a store that has files at level 2 only plans to drain level 1. -/
theorem exists_plan_without_input :
    ¬ ∀ (snapshot : Snapshot) (l0Trigger levelBytes fanout : ℕ) (p : Plan),
      plan snapshot l0Trigger levelBytes fanout = some p →
      (∃ file ∈ p.inputs, file.level = p.level)
        ∧ (let (min, max) := rangeOf (p.inputs.filter fun file => file.level = p.level)
          p.inputs.filter (fun file => file.level ≠ p.level)
            = (snapshot.atLevel (p.level + 1)).filter fun file => file.overlaps min max) := by
  intro hall
  have h : plan onlyLevelTwo 4 0 10 = some ⟨1, []⟩ := by
    decide +kernel
  obtain ⟨⟨file, hfile, -⟩, -⟩ := hall _ _ _ _ _ h
  cases hfile

end Compaction

end Lsmkv
