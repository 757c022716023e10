import Mathlib.Data.Nat.Count

/-!
# Counting threads

`Nat.count` counts how many of the first `n` numbers have a property.  When the property changes for
one of them only, the count changes by what that one contributes (`count_update`).
-/

namespace Lsmkv

variable {p : ℕ → Bool} {n u : ℕ}

/-- Only `u` changes, so the count gains what `u` gains and loses what `u` loses. -/
theorem count_update (p p' : ℕ → Bool) (hu : u < n) (h : ∀ v, v ≠ u → p' v = p v) :
    Nat.count (fun v => p' v = true) n + (p u).toNat
      = Nat.count (fun v => p v = true) n + (p' u).toNat := by
  induction n with
  | zero => cases hu
  | succ n ih =>
    rw [Nat.count_succ, Nat.count_succ]
    rcases Nat.lt_or_eq_of_le (Nat.le_of_lt_succ hu) with hlt | rfl
    · rw [h n hlt.ne']
      have := ih hlt
      omega
    · have hsame : Nat.count (fun v => p' v = true) u = Nat.count (fun v => p v = true) u :=
        le_antisymm (Nat.count_mono_left fun v hv hp => by rwa [h v hv.ne] at hp)
          (Nat.count_mono_left fun v hv hp => by rwa [h v hv.ne])
      rw [hsame]
      cases p u <;> cases p' u <;> simp

/-- Whoever does not count keeps the count below the number of all. -/
theorem count_lt (hu : u < n) (h : p u = false) : Nat.count (fun v => p v = true) n < n := by
  refine lt_of_le_of_ne (Nat.count_le _) fun heq => ?_
  have := Nat.count_iff_forall.mp heq u hu
  rw [h] at this
  cases this

end Lsmkv
