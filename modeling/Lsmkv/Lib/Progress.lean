import Mathlib.Order.Lattice
import Mathlib.Order.WellFounded
import Lsmkv.Lib.Transition

/-!
# Runs that come to an end

A system whose permitted steps make a quantity smaller cannot go on for ever: a numeric quantity
bounds how many steps that make it smaller a run can take (`run_countP_le`), and for a quantity in
any well-founded order there is no infinite run (`not_exists_infinite`).
-/

namespace Lsmkv

variable {σ α : Type*} {step : σ → α → Option σ} {permitted : σ → α → Bool} {inv : σ → Prop}

/-- The invariant of a system holds at the end of a run that keeps it. -/
theorem run_invariant (hstep : ∀ s a t, inv s → permitted s a = true → step s a = some t → inv t) :
    ∀ {labels : List α} {s t : σ}, inv s → run step permitted s labels = some t → inv t
  | [], s, t, hs, h => by
    obtain rfl := Option.some.inj h
    exact hs
  | a :: rest, s, t, hs, h => by
    rw [run] at h
    split_ifs at h with ha
    obtain ⟨u, hu, hrest⟩ := Option.bind_eq_some_iff.mp h
    exact run_invariant hstep (hstep s a u hs ha hu) hrest

/-- A run takes no more steps that make a quantity smaller than the quantity allows, if the others
do not make it larger. -/
theorem run_countP_le (μ : σ → ℕ) (counted : α → Bool)
    (hstep : ∀ s a t, inv s → permitted s a = true → step s a = some t →
      inv t ∧ μ t ≤ μ s ∧ (counted a = true → μ t < μ s)) :
    ∀ {labels : List α} {s t : σ}, inv s → run step permitted s labels = some t →
      labels.countP counted + μ t ≤ μ s
  | [], s, t, hs, h => by
    obtain rfl := Option.some.inj h
    simp
  | a :: rest, s, t, hs, h => by
    rw [run] at h
    split_ifs at h with ha
    obtain ⟨u, hu, hrest⟩ := Option.bind_eq_some_iff.mp h
    obtain ⟨hinv, hle, hlt⟩ := hstep s a u hs ha hu
    have hrun := run_countP_le μ counted hstep hinv hrest
    rw [List.countP_cons]
    split_ifs with hcounted
    · have := hlt hcounted
      omega
    · omega

/-- No run goes on for ever. -/
theorem not_exists_infinite {β : Type*} {r : β → β → Prop} (hr : WellFounded r) {μ : σ → β}
    (hstep : ∀ s a t, inv s → permitted s a = true → step s a = some t → inv t ∧ r (μ t) (μ s))
    {s : σ} (hs : inv s) : ¬ ∃ f : ℕ → σ, f 0 = s
      ∧ ∀ n, ∃ a, permitted (f n) a = true ∧ step (f n) a = some (f (n + 1)) := by
  rintro ⟨f, h0, hf⟩
  have hinv : ∀ n, inv (f n) := by
    intro n
    induction n with
    | zero => rwa [h0]
    | succ n ih =>
      obtain ⟨a, ha, h⟩ := hf n
      exact (hstep _ a _ ih ha h).1
  -- the least value the quantity takes along the run is not the least
  obtain ⟨n, hn⟩ : ∃ n, ∀ k, ¬ r (μ (f k)) (μ (f n)) := by
    obtain ⟨_, ⟨n, rfl⟩, hmin⟩ := hr.has_min (Set.range fun n => μ (f n)) ⟨_, 0, rfl⟩
    exact ⟨n, fun k => hmin _ ⟨k, rfl⟩⟩
  obtain ⟨a, ha, h⟩ := hf n
  exact hn (n + 1) (hstep _ a _ (hinv n) ha h).2

end Lsmkv
