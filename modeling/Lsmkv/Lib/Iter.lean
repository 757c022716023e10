import Mathlib.Logic.Function.Iterate

/-!
# What an iterator yields

An iterator is a function that returns an item, or none, and the state it is left in.
`Yields next s l` says that from `s` on it returns the items of `l` in order and then none for ever,
however often it is asked again.

An iterator that consumes something with every item yields finitely many (`exists_yields`), and
`drainIter` computes them (`drainIter_eq`).
-/

namespace Lsmkv

variable {σ α : Type*} (next : σ → Option α × σ)

/-- From `s` on the iterator returns nothing, however often it is asked. -/
def Exhausted (s : σ) : Prop := ∀ n, (next ((fun s => (next s).2)^[n] s)).1 = none

/-- The iterator returns the items of a list and is exhausted then. -/
inductive Yields : σ → List α → Prop
  | done {s : σ} (h : Exhausted next s) : Yields s []
  | item {s s' : σ} {a : α} {l : List α} (h : next s = (some a, s')) (rest : Yields s' l) :
    Yields s (a :: l)

/-- The items an iterator returns before its first none, at most `fuel` of them. -/
def drainIter : ℕ → σ → List α
  | 0, _ => []
  | fuel + 1, s =>
    match next s with
    | (none, _) => []
    | (some a, s) => a :: drainIter fuel s

variable {next}

/-- A state that is left as it is and returns nothing is exhausted. -/
theorem exhausted_of_eq {s : σ} (h : next s = (none, s)) : Exhausted next s := by
  have hstay : (fun s => (next s).2) s = s := congrArg Prod.snd h
  intro n
  rw [Function.iterate_fixed hstay, h]

/-- A state that returns nothing and leaves an exhausted one is exhausted. -/
theorem Exhausted.of_next {s s' : σ} (h : next s = (none, s')) (h' : Exhausted next s') :
    Exhausted next s := by
  intro n
  cases n with
  | zero => exact congrArg Prod.fst h
  | succ n =>
    have hn := h' n
    rw [Function.iterate_succ_apply, h]
    exact hn

theorem Yields.of_eq {s : σ} (h : next s = (none, s)) : Yields next s [] :=
  Yields.done (exhausted_of_eq h)

/-- Two states the next call does not tell apart yield the same items. -/
theorem Yields.congr {s s' : σ} (h : next s = next s') {l : List α} (hs' : Yields next s' l) :
    Yields next s l := by
  cases hs' with
  | item hitem rest => exact Yields.item (h.trans hitem) rest
  | done hdone =>
    refine Yields.done fun n => ?_
    cases n with
    | zero => exact (congrArg Prod.fst h).trans (hdone 0)
    | succ n =>
      have hn := hdone (n + 1)
      rw [Function.iterate_succ_apply] at hn ⊢
      rw [h]
      exact hn

/-- What an iterator yields is determined by its state. -/
theorem Yields.unique {s : σ} {l l' : List α} (h : Yields next s l) (h' : Yields next s l') :
    l = l' := by
  induction h generalizing l' with
  | done hdone =>
    cases h' with
    | done => rfl
    | item hitem =>
      have hnone : (next _).1 = none := hdone 0
      rw [Function.iterate_zero_apply, hitem] at hnone
      cases hnone
  | item hitem _ ih =>
    cases h' with
    | done hdone =>
      have hnone : (next _).1 = none := hdone 0
      rw [Function.iterate_zero_apply, hitem] at hnone
      cases hnone
    | item hitem' rest' =>
      rw [hitem] at hitem'
      obtain ⟨ha, rfl⟩ := Prod.mk.inj hitem'
      obtain rfl := Option.some.inj ha
      rw [ih rest']

theorem Exhausted.fst_eq {s : σ} (h : Exhausted next s) : (next s).1 = none := h 0

/-- An exhausted iterator yields nothing. -/
theorem Yields.eq_nil {s : σ} {l : List α} (h : Yields next s l) (hs : Exhausted next s) : l = [] :=
  h.unique (Yields.done hs)

theorem drainIter_eq {s : σ} {l : List α} (h : Yields next s l) {fuel : ℕ}
    (hfuel : l.length ≤ fuel) : drainIter next fuel s = l := by
  induction h generalizing fuel with
  | @done s hdone =>
    cases fuel with
    | zero => rfl
    | succ fuel =>
      rw [drainIter, ← Prod.eta (next s), hdone.fst_eq]
  | @item s s' a l hitem _ ih =>
    cases fuel with
    | zero => cases hfuel
    | succ fuel =>
      rw [drainIter, hitem]
      exact congrArg (a :: ·) (ih (Nat.le_of_succ_le_succ hfuel))

/-- An iterator whose every item lowers a measure yields finitely many. -/
theorem exists_yields {μ : σ → ℕ}
    (h : ∀ s, Exhausted next s ∨ ∃ a s', next s = (some a, s') ∧ μ s' < μ s) (s : σ) :
    ∃ l, Yields next s l ∧ l.length ≤ μ s := by
  generalize hn : μ s = n
  induction n using Nat.strongRecOn generalizing s with
  | ind n ih =>
    rcases h s with hdone | ⟨a, s', hitem, hlt⟩
    · exact ⟨[], Yields.done hdone, Nat.zero_le _⟩
    · obtain ⟨l, hl, hlen⟩ := ih (μ s') (hn ▸ hlt) s' rfl
      refine ⟨a :: l, Yields.item hitem hl, ?_⟩
      rw [List.length_cons]
      omega

end Lsmkv
