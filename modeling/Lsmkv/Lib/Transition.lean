import Mathlib.Tactic.SplitIfs

/-!
# Labelled transition systems

A system is a partial step function `step : σ → α → Option σ`.  `Reachable step ok init s` says
that some run leads from a state of `init` to `s`, every step of which satisfies `ok` in the state
before it.  `Reachable.invariant` is the induction every safety proof goes through, and
`Reachable.of_run` turns a concrete trace the kernel can evaluate into a reachable state.
-/

namespace Lsmkv

variable {σ α : Type*} {step : σ → α → Option σ} {ok ok' : σ → α → Prop} {init : σ → Prop}

/-- The states that runs made of permitted steps lead to. -/
inductive Reachable (step : σ → α → Option σ) (ok : σ → α → Prop) (init : σ → Prop) : σ → Prop
  | start {s : σ} (h : init s) : Reachable step ok init s
  | step {s t : σ} {a : α} (hs : Reachable step ok init s) (ha : ok s a)
      (ht : step s a = some t) : Reachable step ok init t

namespace Reachable

/-- What holds initially and is preserved by every permitted step holds in every reachable state.
The step may use that the state it starts from is reachable. -/
theorem invariant {inv : σ → Prop} (h0 : ∀ s, init s → inv s)
    (hstep : ∀ s a t, Reachable step ok init s → inv s → ok s a → step s a = some t → inv t)
    {s : σ} (hs : Reachable step ok init s) : inv s := by
  induction hs with
  | start h => exact h0 _ h
  | step hs ha ht ih => exact hstep _ _ _ hs ih ha ht

/-- Permitting more steps reaches more states. -/
theorem mono (hok : ∀ s a, ok s a → ok' s a) {s : σ} (hs : Reachable step ok init s) :
    Reachable step ok' init s := by
  induction hs with
  | start h => exact start h
  | step _ ha ht ih => exact ih.step (hok _ _ ha) ht

end Reachable

/-- Runs a list of labels, checking that each is permitted where it is taken. -/
def run (step : σ → α → Option σ) (permitted : σ → α → Bool) : σ → List α → Option σ
  | s, [] => some s
  | s, a :: rest => if permitted s a then (step s a).bind (run step permitted · rest) else none

/-- The first step of a trace. -/
theorem run_cons {permitted : σ → α → Bool} {a : α} {rest : List α} {s u : σ}
    (h : run step permitted s (a :: rest) = some u) :
    ∃ t, step s a = some t ∧ run step permitted t rest = some u := by
  rw [run] at h
  split_ifs at h
  exact Option.bind_eq_some_iff.mp h

/-- A trace that runs to the end reaches its last state. -/
theorem Reachable.of_run {permitted : σ → α → Bool} (hok : ∀ s a, permitted s a = true → ok s a) :
    ∀ {labels : List α} {s t : σ}, Reachable step ok init s →
      run step permitted s labels = some t → Reachable step ok init t
  | [], s, t, hs, h => by
    obtain rfl := Option.some.inj h
    exact hs
  | a :: rest, s, t, hs, h => by
    rw [run] at h
    split_ifs at h with ha
    rw [Option.bind_eq_some_iff] at h
    obtain ⟨u, hu, hrest⟩ := h
    exact Reachable.of_run hok (hs.step (hok s a ha) hu) hrest

/-- A trace whose last state passes a test witnesses a reachable state that passes it. -/
theorem Reachable.exists_of_run {permitted : σ → α → Bool} {s : σ} {labels : List α}
    {test : σ → Bool} (hok : ∀ s a, permitted s a = true → ok s a) (hs : init s)
    (h : (run step permitted s labels).map test = some true) :
    ∃ t, Reachable step ok init t ∧ test t = true := by
  rw [Option.map_eq_some_iff] at h
  obtain ⟨t, ht, htest⟩ := h
  exact ⟨t, Reachable.of_run hok (Reachable.start hs) ht, htest⟩

end Lsmkv
