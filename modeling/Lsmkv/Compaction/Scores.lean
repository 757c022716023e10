import Lsmkv.Compaction.Plan

/-!
# Exact scores (`compaction.rs`)

`exactPlan` is `plan` over exact quotients and exact byte totals, the scores that the rounded ones
of the code stand for.

Up to `2 ^ 53` bytes a level, the rounding neither hides a level past its limit nor invents one
(`one_lt_ratio_iff`) and keeps the order of the scores (`ratio_le_ratio`).  So `plan` finds work
exactly when `exactPlan` does, and the two differ only where rounding makes two scores equal
(`plan_agrees`).
-/

namespace Lsmkv

namespace Compaction

/-- How far past its limit a level sits, as an exact quotient. -/
def exactRatio (value limit : ℕ) : WithTop ℚ :=
  if limit = 0 then ⊤ else ((value / limit : ℚ) : WithTop ℚ)

/-- Chooses the level most in need of a compaction by its exact score. -/
def exactPlan (snapshot : Snapshot) (l0Trigger levelBytes fanout : ℕ) : Option Plan :=
  let l0Files := (snapshot.atLevel 0).length
  let start : Option ℕ × WithTop ℚ :=
    if l0Trigger ≤ l0Files ∧ 0 < l0Trigger then (some 0, exactRatio l0Files l0Trigger)
    else (none, 1)
  let (chosen, _) := (List.range' 1 snapshot.deepestLevel).foldl
    (fun (chosen, best) level =>
      let score := exactRatio (snapshot.exactBytesAtLevel level) (budget level levelBytes fanout)
      if best < score then (some level, score) else (chosen, best)) start
  chosen.map fun level => ⟨level, inputsFor snapshot level⟩

/-- The exact score of a level. -/
def exactScore : Snapshot → ℕ → ℕ → ℕ → ℕ → WithTop ℚ :=
  levelScore exactRatio Snapshot.exactBytesAtLevel

theorem exactPlan_eq_chosenBy (snapshot : Snapshot) (l0Trigger levelBytes fanout : ℕ) :
    exactPlan snapshot l0Trigger levelBytes fanout
      = (chosenBy exactRatio Snapshot.exactBytesAtLevel snapshot l0Trigger levelBytes fanout).map
        fun level => ⟨level, inputsFor snapshot level⟩ := rfl

/-! ### Exact quotients -/

section Exact

variable {value limit : ℕ}

theorem one_le_exactRatio (hlimit : 0 < limit) (h : limit ≤ value) :
    1 ≤ exactRatio value limit := by
  rw [exactRatio, if_neg hlimit.ne']
  have hpos : (0 : ℚ) < limit := by exact_mod_cast hlimit
  have hle : (1 : ℚ) ≤ value / limit := by
    rw [le_div_iff₀ hpos, one_mul]
    exact_mod_cast h
  exact_mod_cast hle

theorem one_lt_exactRatio_iff : 1 < exactRatio value limit ↔ limit = 0 ∨ limit < value := by
  rcases limit.eq_zero_or_pos with rfl | hpos
  · rw [exactRatio, if_pos rfl]
    exact ⟨fun _ => Or.inl rfl, fun _ => WithTop.coe_lt_top 1⟩
  · have hpos' : (0 : ℚ) < limit := by exact_mod_cast hpos
    have hquot : 1 < exactRatio value limit ↔ (1 : ℚ) < value / limit := by
      rw [exactRatio, if_neg hpos.ne']
      exact_mod_cast Iff.rfl
    rw [hquot, one_lt_div hpos', Nat.cast_lt, or_iff_right hpos.ne']

end Exact

section Ratio

variable {value limit value' limit' : ℕ}

theorem asF64_eq (h : value ≤ 2 ^ 53) : asF64 value = value := roundTo_natCast (by decide) h

theorem ratio_eq (hvalue : value ≤ 2 ^ 53) (hpos : limit ≠ 0) (hlimit : limit ≤ 2 ^ 53) :
    ratio value limit = ((roundTo f64Bits (value / limit : ℚ) : ℚ) : WithTop ℚ) := by
  rw [ratio, if_neg hpos, asF64_eq hvalue, asF64_eq hlimit]

/-- Up to `2 ^ 53` bytes, the rounded score is past one exactly when the level is past its limit,
whatever the limit is. -/
theorem one_lt_ratio_iff (hvalue : value ≤ 2 ^ 53) :
    1 < ratio value limit ↔ limit = 0 ∨ limit < value := by
  rcases limit.eq_zero_or_pos with rfl | hpos
  · rw [ratio, if_pos rfl]
    exact ⟨fun _ => Or.inl rfl, fun _ => WithTop.coe_lt_top 1⟩
  · have hpos' : (0 : ℚ) < limit := by exact_mod_cast hpos
    constructor
    · intro h
      by_contra hle
      exact absurd h (ratio_le_one hpos (by omega)).not_gt
    · rintro (h | h)
      · exact absurd h hpos.ne'
      · -- one byte more than a limit below `2 ^ 53` is further than half a step
        have hquot : (1 : ℚ) + 1 / 2 ^ f64Bits < value / limit := by
          have hlimit : (limit : ℚ) < 2 ^ f64Bits := by exact_mod_cast h.trans_le hvalue
          have hvalue' : (limit : ℚ) + 1 ≤ value := by exact_mod_cast h
          calc (1 : ℚ) + 1 / 2 ^ f64Bits < 1 + 1 / limit :=
                add_lt_add_right (one_div_lt_one_div_of_lt hpos' hlimit) 1
            _ = (limit + 1) / limit := by rw [add_div, div_self hpos'.ne']
            _ ≤ value / limit := div_le_div_of_nonneg_right hvalue' hpos'.le
        have hround := one_lt_roundTo (by decide) hquot
        rw [ratio_eq hvalue hpos.ne' (h.le.trans hvalue)]
        exact_mod_cast hround

/-- Rounding keeps the order of the scores. -/
theorem ratio_le_ratio (hvalue : value ≤ 2 ^ 53) (hlimit : limit ≤ 2 ^ 53)
    (hvalue' : value' ≤ 2 ^ 53) (hlimit' : limit' ≤ 2 ^ 53)
    (h : exactRatio value limit ≤ exactRatio value' limit') :
    ratio value limit ≤ ratio value' limit' := by
  by_cases hzero' : limit' = 0
  · rw [ratio, ratio, if_pos hzero']
    exact le_top
  · by_cases hzero : limit = 0
    · rw [exactRatio, exactRatio, if_pos hzero, if_neg hzero', top_le_iff] at h
      exact absurd h (WithTop.coe_ne_top)
    · rw [exactRatio, exactRatio, if_neg hzero, if_neg hzero', WithTop.coe_le_coe] at h
      rw [ratio_eq hvalue hzero hlimit, ratio_eq hvalue' hzero' hlimit', WithTop.coe_le_coe]
      exact roundTo_mono (by decide) (by positivity) h

/-- Scores that rounding puts in order are in order but for one part in `2 ^ 51`. -/
theorem exactRatio_le_of_ratio_le (hvalue : value ≤ 2 ^ 53) (hlimit : limit ≤ 2 ^ 53)
    (hvalue' : value' ≤ 2 ^ 53) (hlimit' : limit' ≤ 2 ^ 53)
    (h : ratio value limit ≤ ratio value' limit') :
    exactRatio value limit ≤ exactRatio value' limit' * ((1 + 1 / 2 ^ 51 : ℚ) : WithTop ℚ) := by
  by_cases hzero' : limit' = 0
  · rw [exactRatio, exactRatio, if_pos hzero', WithTop.top_mul (by norm_num)]
    exact le_top
  · rw [ratio_eq hvalue' hzero' hlimit'] at h
    by_cases hzero : limit = 0
    · rw [ratio, if_pos hzero, top_le_iff] at h
      exact absurd h (WithTop.coe_ne_top)
    · rw [ratio_eq hvalue hzero hlimit, WithTop.coe_le_coe] at h
      have hclose := mul_le_mul_of_roundTo_le (by positivity) (by positivity) h
      have hnonneg : (0 : ℚ) ≤ value' / limit' := by positivity
      rw [exactRatio, exactRatio, if_neg hzero, if_neg hzero', ← WithTop.coe_mul,
        WithTop.coe_le_coe]
      rw [f64Bits] at hclose
      linarith

end Ratio

/-! ### The two plans -/

section Plans

variable {snapshot : Snapshot} {l0Trigger levelBytes fanout level : ℕ}

/-- A total of up to `2 ^ 53` bytes does not wrap around. -/
theorem bytesAtLevel_eq_of_le (h : snapshot.exactBytesAtLevel level ≤ 2 ^ 53) :
    snapshot.bytesAtLevel level = snapshot.exactBytesAtLevel level :=
  Snapshot.bytesAtLevel_eq (h.trans_lt (by decide))

/-- Both ways of computing scores agree on which levels ask for a compaction. -/
theorem past_ratio_iff (hbytes : ∀ level, snapshot.exactBytesAtLevel level ≤ 2 ^ 53) :
    Past (score snapshot l0Trigger levelBytes fanout) (Triggered snapshot l0Trigger) level
      ↔ Past (exactScore snapshot l0Trigger levelBytes fanout) (Triggered snapshot l0Trigger)
        level := by
  refine or_congr_right (and_congr_right fun hlevel => ?_)
  have hne : level ≠ 0 := Nat.one_le_iff_ne_zero.mp hlevel
  rw [score, exactScore, levelScore, levelScore, if_neg hne, if_neg hne,
    bytesAtLevel_eq_of_le (hbytes level), one_lt_ratio_iff (hbytes level), one_lt_exactRatio_iff]

/-- What a level that asks for a compaction is measured by is exact in an `f64`. -/
theorem exists_of_past (hfiles : (snapshot.atLevel 0).length ≤ 2 ^ 53)
    (hbytes : ∀ level, snapshot.exactBytesAtLevel level ≤ 2 ^ 53)
    (hpast : Past (exactScore snapshot l0Trigger levelBytes fanout) (Triggered snapshot l0Trigger)
      level) :
    ∃ value limit, value ≤ 2 ^ 53 ∧ limit ≤ 2 ^ 53
      ∧ score snapshot l0Trigger levelBytes fanout level = ratio value limit
      ∧ exactScore snapshot l0Trigger levelBytes fanout level = exactRatio value limit := by
  rcases hpast with ⟨rfl, htrigger⟩ | ⟨hlevel, hlt⟩
  · refine ⟨(snapshot.atLevel 0).length, l0Trigger, hfiles, htrigger.1.trans hfiles, ?_, ?_⟩
    · rw [score, levelScore, if_pos rfl, if_pos htrigger]
    · rw [exactScore, levelScore, if_pos rfl, if_pos htrigger]
  · have hne : level ≠ 0 := Nat.one_le_iff_ne_zero.mp hlevel
    have hexact : exactScore snapshot l0Trigger levelBytes fanout level
        = exactRatio (snapshot.exactBytesAtLevel level) (budget level levelBytes fanout) := by
      rw [exactScore, levelScore, if_neg hne]
    rw [hexact, one_lt_exactRatio_iff] at hlt
    have hlimit : budget level levelBytes fanout ≤ 2 ^ 53 := by
      rcases hlt with hzero | hlt
      · omega
      · exact hlt.le.trans (hbytes level)
    refine ⟨_, _, hbytes level, hlimit, ?_, hexact⟩
    rw [score, levelScore, if_neg hne, bytesAtLevel_eq_of_le (hbytes level)]

/-- **The scores of the code choose as exact scores would.**  While level 0 has no more than
`2 ^ 53` files and no level more than `2 ^ 53` bytes, the plan made with `f64` scores finds work
exactly when the one made with exact scores does.  The level it drains has the same `f64` score as
the neediest one, is not deeper, and is behind it by less than one part in `2 ^ 51`. -/
theorem plan_agrees (hfiles : (snapshot.atLevel 0).length ≤ 2 ^ 53)
    (hbytes : ∀ level, snapshot.exactBytesAtLevel level ≤ 2 ^ 53) :
    (plan snapshot l0Trigger levelBytes fanout = none
        ↔ exactPlan snapshot l0Trigger levelBytes fanout = none)
      ∧ ∀ p q, plan snapshot l0Trigger levelBytes fanout = some p →
        exactPlan snapshot l0Trigger levelBytes fanout = some q →
        p.level ≤ q.level
          ∧ score snapshot l0Trigger levelBytes fanout p.level
            = score snapshot l0Trigger levelBytes fanout q.level
          ∧ exactScore snapshot l0Trigger levelBytes fanout q.level
            ≤ exactScore snapshot l0Trigger levelBytes fanout p.level
              * ((1 + 1 / 2 ^ 51 : ℚ) : WithTop ℚ) := by
  have hexact :=
    picks_chosenBy Snapshot.exactBytesAtLevel snapshot l0Trigger levelBytes fanout one_le_exactRatio
  have hfloat :=
    picks_chosenBy Snapshot.bytesAtLevel snapshot l0Trigger levelBytes fanout one_le_ratio
  rw [plan_eq_chosenBy, exactPlan_eq_chosenBy]
  constructor
  · rw [Option.map_eq_none_iff, Option.map_eq_none_iff, hfloat.eq_none_iff, hexact.eq_none_iff]
    exact forall₂_congr fun level _ => not_congr (past_ratio_iff hbytes)
  · intro p q hp hq
    obtain ⟨k, hk, rfl⟩ := Option.map_eq_some_iff.mp hp
    obtain ⟨m, hm, rfl⟩ := Option.map_eq_some_iff.mp hq
    rw [hk] at hfloat
    rw [hm] at hexact
    cases hfloat with
    | level hdeepest hpast hfirst hle =>
      cases hexact with
      | level hdeepest' hpast' hfirst' hle' =>
        obtain ⟨value, limit, hvalue, hlimit, hscore, hexact⟩ :=
          exists_of_past hfiles hbytes ((past_ratio_iff hbytes).mp hpast)
        obtain ⟨value', limit', hvalue', hlimit', hscore', hexact'⟩ :=
          exists_of_past hfiles hbytes hpast'
        -- each choice is ahead in its own scores, and rounding keeps the order of the exact ones
        have hge : score snapshot l0Trigger levelBytes fanout m
            ≤ score snapshot l0Trigger levelBytes fanout k := hle m hdeepest'
        have hsame : score snapshot l0Trigger levelBytes fanout k
            = score snapshot l0Trigger levelBytes fanout m := by
          refine le_antisymm ?_ hge
          have hle₁ : exactScore snapshot l0Trigger levelBytes fanout k
              ≤ exactScore snapshot l0Trigger levelBytes fanout m := hle' k hdeepest
          rw [hexact, hexact'] at hle₁
          rw [hscore, hscore']
          exact ratio_le_ratio hvalue hlimit hvalue' hlimit' hle₁
        refine ⟨?_, hsame, ?_⟩
        · by_contra hlt
          exact absurd hsame (hfirst m (not_le.mp hlt)).ne'
        · rw [hscore, hscore'] at hge
          rw [hexact, hexact']
          exact exactRatio_le_of_ratio_le hvalue' hlimit' hvalue hlimit hge

/-- Two levels past their limits by so nearly the same factor that their `f64` scores are equal. -/
def nearlyEqual : Snapshot :=
  ⟨[⟨1, 1, [1], [2], 2 ^ 52 - 9, 1⟩, ⟨2, 2, [1], [2], 2 ^ 53 - 17, 1⟩], 1, 3⟩

theorem exactBytesAtLevel_nearlyEqual (level : ℕ) :
    nearlyEqual.exactBytesAtLevel level ≤ 2 ^ 53 := by
  unfold Snapshot.exactBytesAtLevel Snapshot.atLevel nearlyEqual
  by_cases h1 : level = 1
  · rw [h1]
    decide
  · by_cases h2 : level = 2
    · rw [h2]
      decide
    · simp [Ne.symm h1, Ne.symm h2]

theorem plan_agrees_nearlyEqual :
    plan nearlyEqual 4 13 2 = some ⟨1, inputsFor nearlyEqual 1⟩
      ∧ exactPlan nearlyEqual 4 13 2 = some ⟨2, inputsFor nearlyEqual 2⟩
      ∧ score nearlyEqual 4 13 2 1 = score nearlyEqual 4 13 2 2 := by
  have hfloat : plan nearlyEqual 4 13 2 = some ⟨1, inputsFor nearlyEqual 1⟩ := by
    decide +kernel
  have hexact : exactPlan nearlyEqual 4 13 2 = some ⟨2, inputsFor nearlyEqual 2⟩ := by
    decide +kernel
  exact ⟨hfloat, hexact,
    ((plan_agrees (by decide) exactBytesAtLevel_nearlyEqual).2 _ _ hfloat hexact).2.1⟩

-- one byte more and `f64` cannot tell the total from the limit
example : exactPlan ⟨[⟨1, 1, [1], [2], 2 ^ 53 + 1, 1⟩], 1, 2⟩ 4 (2 ^ 53) 10 ≠ none
    ∧ plan ⟨[⟨1, 1, [1], [2], 2 ^ 53 + 1, 1⟩], 1, 2⟩ 4 (2 ^ 53) 10 = none := by
  decide +kernel

end Plans

end Compaction

end Lsmkv
