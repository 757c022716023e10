import Mathlib.Algebra.Order.Floor.Ring
import Mathlib.Data.Int.Log
import Mathlib.Tactic

/-!
# Rounding to so many significant bits

`roundTo p x` is the number of `p` significant bits nearest to `x`, and of two equally near ones
the one whose last bit is zero: how binary floating-point arithmetic rounds the exact result of an
operation, with no bound on the exponent.

Rounding keeps the order (`roundTo_mono`), leaves integers of up to `p` bits alone
(`roundTo_natCast`), moves a positive number by at most one part in `2 ^ p` (`abs_roundTo_sub_le`)
and tells a number from `1` once it is further from it than half a step (`one_lt_roundTo`).
-/

namespace Lsmkv

variable {K : Type*} [Field K] [LinearOrder K] [FloorRing K]

/-! ### To the nearest integer -/

/-- The integer nearest to `x`, and of two equally near ones the even one. -/
def roundEven (x : K) : ℤ :=
  if Int.fract x < 1 / 2 then ⌊x⌋
  else if 1 / 2 < Int.fract x then ⌊x⌋ + 1
  else if Even ⌊x⌋ then ⌊x⌋ else ⌊x⌋ + 1

theorem floor_le_roundEven (x : K) : ⌊x⌋ ≤ roundEven x := by
  unfold roundEven
  split_ifs <;> omega

theorem roundEven_le_floor_add_one (x : K) : roundEven x ≤ ⌊x⌋ + 1 := by
  unfold roundEven
  split_ifs <;> omega

variable [IsStrictOrderedRing K] {x y : K} {p n : ℕ}

@[simp] theorem roundEven_intCast (n : ℤ) : roundEven (n : K) = n := by
  have hhalf : (0 : K) < 1 / 2 := by norm_num
  rw [roundEven, Int.fract_intCast, if_pos hhalf, Int.floor_intCast]

theorem roundEven_mono (h : x ≤ y) : roundEven x ≤ roundEven y := by
  rcases (Int.floor_mono h).lt_or_eq with hlt | heq
  · -- an integer lies between the two
    calc roundEven x ≤ ⌊x⌋ + 1 := roundEven_le_floor_add_one x
      _ ≤ ⌊y⌋ := hlt
      _ ≤ roundEven y := floor_le_roundEven y
  · have hfract : Int.fract x ≤ Int.fract y := by
      rw [Int.fract, Int.fract, heq]
      exact sub_le_sub_right h _
    by_cases hx : Int.fract x < 1 / 2
    · rw [roundEven, if_pos hx, heq]
      exact floor_le_roundEven y
    · by_cases hy : 1 / 2 < Int.fract y
      · have hround : roundEven y = ⌊y⌋ + 1 := by
          rw [roundEven, if_neg fun h => hx (hfract.trans_lt h), if_pos hy]
        rw [hround, ← heq]
        exact roundEven_le_floor_add_one x
      · -- both lie half-way between the same integers
        rw [roundEven, roundEven, if_neg hx, if_neg fun h => hx (hfract.trans_lt h), if_neg hy,
          if_neg fun h => hy (h.trans_le hfract), heq]

theorem abs_roundEven_sub_le (x : K) : |(roundEven x : K) - x| ≤ 1 / 2 := by
  have hx : (⌊x⌋ : K) = x - Int.fract x := by rw [Int.fract, sub_sub_cancel]
  have hlow := Int.fract_nonneg x
  have hhigh := (Int.fract_lt_one x).le
  unfold roundEven
  rw [abs_le]
  split_ifs with h₁ h₂ h₃ <;> push_cast <;> rw [hx] <;> constructor <;> linarith

/-- An integer that is left behind by more than a half is left behind. -/
theorem lt_roundEven {n : ℤ} (h : n + 1 / 2 < x) : n < roundEven x := by
  have herror := (abs_le.mp (abs_roundEven_sub_le x)).1
  have hlt : (n : K) < roundEven x := by linarith
  exact_mod_cast hlt

/-! ### To so many bits -/

/-- The distance between neighbours among the numbers of `p` bits about `x`. -/
def ulp (p : ℕ) (x : K) : K := 2 ^ (Int.log 2 x + 1 - p)

/-- The number of `p` significant bits nearest to `x`, and of two equally near ones the even
one. -/
def roundTo (p : ℕ) (x : K) : K := roundEven (x / ulp p x) * ulp p x

theorem ulp_pos (p : ℕ) (x : K) : 0 < ulp p x := zpow_pos two_pos _

omit [IsStrictOrderedRing K] in
/-- A power of two counted in steps of another one. -/
theorem two_zpow_div_ulp (p : ℕ) (x : K) (k : ℕ) (hk : k ≤ p) :
    (2 : K) ^ (Int.log 2 x + 1 - k) / ulp p x = ((2 ^ (p - k) : ℕ) : K) := by
  rw [ulp, ← zpow_sub₀ two_ne_zero, Nat.cast_pow, Nat.cast_ofNat, ← zpow_natCast]
  congr 1
  push_cast [hk]
  ring

/-- Rounding stays above the power of two below a number. -/
theorem two_zpow_log_le_roundTo (hp : 1 ≤ p) (hx : 0 < x) :
    (2 : K) ^ Int.log 2 x ≤ roundTo p x := by
  have hsteps := two_zpow_div_ulp p x 1 hp
  rw [Nat.cast_one, add_sub_cancel_right] at hsteps
  have hbelow : (2 : K) ^ Int.log 2 x / ulp p x ≤ x / ulp p x :=
    div_le_div_of_nonneg_right (by exact_mod_cast Int.zpow_log_le_self one_lt_two hx)
      (ulp_pos p x).le
  rw [hsteps, ← Int.cast_natCast] at hbelow
  have hround := roundEven_mono hbelow
  rw [roundEven_intCast] at hround
  rw [roundTo, ← div_le_iff₀ (ulp_pos p x), hsteps]
  exact_mod_cast hround

/-- Rounding stays below the power of two above a number. -/
theorem roundTo_le_two_zpow_log_add_one (p : ℕ) (x : K) :
    roundTo p x ≤ (2 : K) ^ (Int.log 2 x + 1) := by
  have hsteps := two_zpow_div_ulp p x 0 (Nat.zero_le p)
  rw [Nat.cast_zero, sub_zero] at hsteps
  have habove : x / ulp p x ≤ (2 : K) ^ (Int.log 2 x + 1) / ulp p x :=
    div_le_div_of_nonneg_right (by exact_mod_cast (Int.lt_zpow_succ_log_self one_lt_two x).le)
      (ulp_pos p x).le
  rw [hsteps, ← Int.cast_natCast] at habove
  have hround := roundEven_mono habove
  rw [roundEven_intCast] at hround
  rw [roundTo, ← le_div_iff₀ (ulp_pos p x), hsteps]
  exact_mod_cast hround

@[simp] theorem roundTo_zero (p : ℕ) : roundTo p (0 : K) = 0 := by
  have hzero : roundEven (0 : K) = 0 := by exact_mod_cast roundEven_intCast (K := K) 0
  rw [roundTo, zero_div, hzero, Int.cast_zero, zero_mul]

theorem roundTo_pos (hp : 1 ≤ p) (hx : 0 < x) : 0 < roundTo p x :=
  (zpow_pos two_pos _).trans_le (two_zpow_log_le_roundTo hp hx)

/-- Rounding keeps the order. -/
theorem roundTo_mono (hp : 1 ≤ p) (hx : 0 ≤ x) (h : x ≤ y) : roundTo p x ≤ roundTo p y := by
  rcases hx.lt_or_eq with hpos | rfl
  · rcases (Int.log_mono_right (b := 2) hpos h).lt_or_eq with hlt | heq
    · -- a power of two lies between the two
      calc roundTo p x ≤ (2 : K) ^ (Int.log 2 x + 1) := roundTo_le_two_zpow_log_add_one p x
        _ ≤ (2 : K) ^ Int.log 2 y := zpow_le_zpow_right₀ one_le_two hlt
        _ ≤ roundTo p y := two_zpow_log_le_roundTo hp (hpos.trans_le h)
    · have hulp : ulp p y = ulp p x := by rw [ulp, ulp, heq]
      rw [roundTo, roundTo, hulp]
      refine mul_le_mul_of_nonneg_right ?_ (ulp_pos p x).le
      exact_mod_cast roundEven_mono (div_le_div_of_nonneg_right h (ulp_pos p x).le)
  · rw [roundTo_zero]
    rcases h.lt_or_eq with hpos | rfl
    · exact (roundTo_pos hp hpos).le
    · rw [roundTo_zero]

/-- A whole number of steps is left alone. -/
theorem roundTo_of_div_eq {m : ℤ} (h : x / ulp p x = m) : roundTo p x = x := by
  rw [roundTo, h, roundEven_intCast, ← h, div_mul_cancel₀ _ (ulp_pos p x).ne']

/-- Integers of up to `p` bits are left alone. -/
theorem roundTo_natCast (hp : 1 ≤ p) (hn : n ≤ 2 ^ p) : roundTo p (n : K) = n := by
  rcases n.eq_zero_or_pos with rfl | hpos
  · rw [Nat.cast_zero, roundTo_zero]
  · rcases hn.lt_or_eq with hlt | rfl
    · -- one step is a fraction of one
      have hlog : Nat.log 2 n + 1 ≤ p := Nat.log_lt_of_lt_pow hpos.ne' hlt
      have hsteps : (n : K) / ulp p (n : K) = ((n * 2 ^ (p - (Nat.log 2 n + 1)) : ℕ) : ℤ) := by
        rw [ulp, Int.log_natCast, div_eq_mul_inv, ← zpow_neg, Int.cast_natCast, Nat.cast_mul,
          Nat.cast_pow, Nat.cast_ofNat, ← zpow_natCast]
        congr 2
        push_cast [hlog]
        ring
      exact roundTo_of_div_eq hsteps
    · -- the first number past `p` bits is a power of two
      have hsteps : ((2 ^ p : ℕ) : K) / ulp p ((2 ^ p : ℕ) : K) = ((2 ^ (p - 1) : ℕ) : ℤ) := by
        rw [ulp, Int.log_natCast, Nat.log_pow one_lt_two, Int.cast_natCast, Nat.cast_pow,
          Nat.cast_pow, Nat.cast_ofNat, ← zpow_natCast, ← zpow_natCast, ← zpow_sub₀ two_ne_zero]
        congr 1
        push_cast [hp]
        ring
      exact roundTo_of_div_eq hsteps

/-- Rounding moves a positive number by at most one part in `2 ^ p`. -/
theorem abs_roundTo_sub_le (hx : 0 < x) : |roundTo p x - x| ≤ x / 2 ^ p := by
  have hulp := ulp_pos p x
  have hfactor : roundTo p x - x = (roundEven (x / ulp p x) - x / ulp p x) * ulp p x := by
    rw [sub_mul, div_mul_cancel₀ _ hulp.ne', roundTo]
  have hstep : ulp p x = 2 * 2 ^ Int.log 2 x / 2 ^ p := by
    rw [ulp, zpow_sub₀ two_ne_zero, zpow_add_one₀ two_ne_zero, zpow_natCast]
    ring
  have hlog : (2 : K) ^ Int.log 2 x ≤ x := by exact_mod_cast Int.zpow_log_le_self one_lt_two hx
  calc |roundTo p x - x|
      = |(roundEven (x / ulp p x) : K) - x / ulp p x| * ulp p x := by
        rw [hfactor, abs_mul, abs_of_pos hulp]
    _ ≤ 1 / 2 * ulp p x := mul_le_mul_of_nonneg_right (abs_roundEven_sub_le _) hulp.le
    _ = 2 ^ Int.log 2 x / 2 ^ p := by rw [hstep]; ring
    _ ≤ x / 2 ^ p := div_le_div_of_nonneg_right hlog (by positivity)

/-- Numbers that rounding puts in order are in order but for one part in `2 ^ p` on either side. -/
theorem mul_le_mul_of_roundTo_le (hx : 0 ≤ x) (hy : 0 ≤ y)
    (h : roundTo p x ≤ roundTo p y) : x * (1 - 1 / 2 ^ p) ≤ y * (1 + 1 / 2 ^ p) := by
  have herror : ∀ {z : K}, 0 ≤ z → |roundTo p z - z| ≤ z / 2 ^ p := by
    intro z hz
    rcases hz.lt_or_eq with hpos | rfl
    · exact abs_roundTo_sub_le hpos
    · rw [roundTo_zero, sub_zero, abs_zero, zero_div]
  calc x * (1 - 1 / 2 ^ p) = x - x / 2 ^ p := by ring
    _ ≤ roundTo p x := by linarith [(abs_le.mp (herror hx)).1]
    _ ≤ roundTo p y := h
    _ ≤ y + y / 2 ^ p := by linarith [(abs_le.mp (herror hy)).2]
    _ = y * (1 + 1 / 2 ^ p) := by ring

/-- A number further from `1` than half a step is told from it. -/
theorem one_lt_roundTo (hp : 1 ≤ p) (h : 1 + 1 / 2 ^ p < x) : 1 < roundTo p x := by
  have hone : (1 : K) < x := lt_trans (lt_add_of_pos_right 1 (by positivity)) h
  rcases le_or_gt 2 x with htwo | htwo
  · calc (1 : K) < 2 := one_lt_two
      _ = roundTo p ((2 : ℕ) : K) := (roundTo_natCast hp (Nat.le_self_pow (by omega) 2)).symm
      _ ≤ roundTo p x := roundTo_mono hp (by positivity) (by exact_mod_cast htwo)
  · -- between `1` and `2` a step is `2 / 2 ^ p`
    have hlog : Int.log 2 x = 0 := by
      rw [Int.log_of_one_le_right 2 hone.le]
      have hfloor : ⌊x⌋₊ < 2 := by
        rw [Nat.floor_lt (by positivity)]
        exact_mod_cast htwo
      exact_mod_cast Nat.log_of_lt hfloor
    have hsteps := two_zpow_div_ulp p x 1 hp
    rw [Nat.cast_one, add_sub_cancel_right, hlog, zpow_zero, ← Int.cast_natCast] at hsteps
    have hulp : ulp p x = 2 / 2 ^ p := by
      rw [ulp, hlog, zero_add, zpow_sub₀ two_ne_zero, zpow_one, zpow_natCast]
    have hpast : (((2 ^ (p - 1) : ℕ) : ℤ) : K) + 1 / 2 < x / ulp p x := by
      rw [← hsteps, lt_div_iff₀ (ulp_pos p x), add_mul, div_mul_cancel₀ _ (ulp_pos p x).ne', hulp]
      calc 1 + 1 / 2 * (2 / 2 ^ p) = 1 + 1 / (2 : K) ^ p := by ring
        _ < x := h
    have hround : (((2 ^ (p - 1) : ℕ) : ℤ) : K) < roundEven (x / ulp p x) := by
      exact_mod_cast lt_roundEven hpast
    rwa [← hsteps, div_lt_iff₀ (ulp_pos p x)] at hround

end Lsmkv
