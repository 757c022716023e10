import Mathlib.Data.UInt
import Lsmkv.Lib.Iter

/-!
# Operations that can panic

`Checked α` is a computation that returns or panics.  Each operation below panics on the inputs on
which a program with overflow and bounds checks stops, and has one lemma that says what it returns
on the others.  A computation that is a sequence of such operations is then shown not to panic by
rewriting with those lemmas, which leaves the side conditions.

`Checked.drain` runs an iterator that can panic to its end.  If its calls return what those of an
iterator without panics do, it collects what that one yields (`drain_eq`).
-/

namespace Lsmkv

/-- Why a computation stops. -/
inductive Trap where
  | overflow
  | outOfRange
  | divideByZero
  deriving DecidableEq, Repr

/-- A computation that returns or panics. -/
abbrev Checked (α : Type) := Except Trap α

namespace Checked

variable {α β σ : Type}

/-- Addition of unsigned integers below a limit. -/
def add (limit a b : ℕ) : Checked ℕ := if a + b < limit then .ok (a + b) else .error .overflow

/-- Multiplication of unsigned integers below a limit. -/
def mul (limit a b : ℕ) : Checked ℕ := if a * b < limit then .ok (a * b) else .error .overflow

/-- Subtraction of unsigned integers. -/
def sub (a b : ℕ) : Checked ℕ := if b ≤ a then .ok (a - b) else .error .overflow

/-- The remainder of a division. -/
def mod [Mod α] [Zero α] [DecidableEq α] (a b : α) : Checked α :=
  if b = 0 then .error .divideByZero else .ok (a % b)

/-- The element at an index. -/
def index (l : List α) (i : ℕ) : Checked α :=
  match l[i]? with
  | some a => .ok a
  | none => .error .outOfRange

/-- The elements from one index up to another. -/
def slice (l : List α) (start stop : ℕ) : Checked (List α) :=
  if start ≤ stop ∧ stop ≤ l.length then .ok ((l.drop start).take (stop - start))
  else .error .outOfRange

/-- Replaces the element at an index by a function of it. -/
def modify (l : List α) (i : ℕ) (f : α → α) : Checked (List α) :=
  if i < l.length then .ok (l.modify i f) else .error .outOfRange

/-- Calls an iterator until it returns none, at most `fuel` times.  Returns the items, or none if
the iterator has not ended by then. -/
def drain (next : σ → Checked (Option α × σ)) : ℕ → σ → Checked (Option (List α))
  | 0, _ => .ok none
  | fuel + 1, s => do
    match ← next s with
    | (none, _) => .ok (some [])
    | (some a, s) =>
      let rest ← drain next fuel s
      .ok (rest.map (a :: ·))

theorem ok_bind (a : α) (f : α → Checked β) : .ok a >>= f = f a := rfl

theorem error_bind (p : Trap) (f : α → Checked β) : .error p >>= f = .error p := rfl

section

variable {limit a b : ℕ}

theorem add_of_lt (h : a + b < limit) : add limit a b = .ok (a + b) := if_pos h

theorem add_of_le (h : limit ≤ a + b) : add limit a b = .error .overflow :=
  if_neg (Nat.not_lt.mpr h)

theorem mul_of_lt (h : a * b < limit) : mul limit a b = .ok (a * b) := if_pos h

theorem sub_of_le (h : b ≤ a) : sub a b = .ok (a - b) := if_pos h

end

theorem mod_of_ne [Mod α] [Zero α] [DecidableEq α] {a b : α} (h : b ≠ 0) : mod a b = .ok (a % b) :=
  if_neg h

section

variable {l : List α} {i : ℕ}

theorem index_of_getElem? {a : α} (h : l[i]? = some a) : index l i = .ok a := by
  rw [index, h]

theorem slice_of_le {start stop : ℕ} (hstart : start ≤ stop) (hstop : stop ≤ l.length) :
    slice l start stop = .ok ((l.drop start).take (stop - start)) := if_pos ⟨hstart, hstop⟩

theorem modify_of_lt (f : α → α) (h : i < l.length) : modify l i f = .ok (l.modify i f) := if_pos h

end

/-- A fold of steps that do not panic while an invariant lasts does not panic. -/
theorem foldlM_eq {step : β → α → Checked β} {plain : β → α → β} (inv : β → Prop)
    (hstep : ∀ b a, inv b → step b a = .ok (plain b a)) (hinv : ∀ b a, inv b → inv (plain b a))
    (l : List α) {b : β} (h : inv b) : l.foldlM step b = .ok (l.foldl plain b) := by
  induction l generalizing b with
  | nil => rfl
  | cons a l ih =>
    rw [List.foldlM_cons, hstep b a h, ok_bind, ih (hinv b a h), List.foldl_cons]

/-- **An iterator that agrees with one that cannot panic** on every state with an invariant collects
what that one yields. -/
theorem drain_eq {next : σ → Checked (Option α × σ)} {plain : σ → Option α × σ} (inv : σ → Prop)
    (hnext : ∀ s, inv s → next s = .ok (plain s)) (hinv : ∀ s, inv s → inv (plain s).2)
    {s : σ} {l : List α} (hyields : Yields plain s l) (h : inv s) {fuel : ℕ}
    (hfuel : l.length < fuel) : drain next fuel s = .ok (some l) := by
  induction hyields generalizing fuel with
  | @done s hdone =>
    obtain ⟨fuel, rfl⟩ : ∃ n, fuel = n + 1 := ⟨fuel - 1, by omega⟩
    have hnone : (plain s).1 = none := hdone 0
    rw [drain, hnext s h, ok_bind, show plain s = (none, (plain s).2) from Prod.ext hnone rfl]
  | @item s s' a l hitem hrest ih =>
    obtain ⟨fuel, rfl⟩ : ∃ n, fuel = n + 1 := ⟨fuel - 1, by omega⟩
    have hs' : inv s' := by
      have := hinv s h
      rwa [hitem] at this
    rw [List.length_cons] at hfuel
    rw [drain, hnext s h, ok_bind, hitem]
    dsimp only
    rw [ih hs' (by omega), ok_bind, Option.map_some]

end Checked

end Lsmkv
