import Mathlib.Data.List.Basic

/-!
# Exact readers

A reader takes a value off the front of its input and returns the rest.  `Exact read write Fits`
says that it is exact for a writer: it accepts an input precisely if that starts with what the
writer writes for some value that fits, and it returns that value and what is behind.  So a value
that was written is read back, and nothing else is accepted.

Exact readers are run one after the other (`Exact.bind_eq_some`), and a fixed number of times
(`Exact.readTimes_eq_some`).  A reader that is more generous than the writer still reads back a
number of values that were written (`readTimes_append`).
-/

namespace Lsmkv

variable {τ α β : Type*} {read : List τ → Option (α × List τ)} {write : α → List τ}
  {Fits : α → Prop}

/-- A reader accepts what a writer writes for the values that fit, and nothing else. -/
def Exact (read : List τ → Option (α × List τ)) (write : α → List τ) (Fits : α → Prop) : Prop :=
  ∀ input a rest, read input = some (a, rest) ↔ input = write a ++ rest ∧ Fits a

/-- Reads a number of values. -/
def readTimes (read : List τ → Option (α × List τ)) : ℕ → List τ → Option (List α × List τ)
  | 0, input => some ([], input)
  | count + 1, input => do
    let (a, input) ← read input
    let (as, input) ← readTimes read count input
    some (a :: as, input)

/-- Values that are read back one by one are read back together. -/
theorem readTimes_append {as : List α}
    (h : ∀ a ∈ as, ∀ rest, read (write a ++ rest) = some (a, rest))
    (rest : List τ) : readTimes read as.length (as.flatMap write ++ rest) = some (as, rest) := by
  induction as with
  | nil => rfl
  | cons a as ih =>
    obtain ⟨ha, has⟩ := List.forall_mem_cons.mp h
    rw [List.flatMap_cons, List.append_assoc, List.length_cons, readTimes, ha, Option.bind_eq_bind,
      Option.bind_some]
    dsimp only
    rw [ih has, Option.bind_eq_bind, Option.bind_some]

/-- What holds of every value that is read holds of a number of them. -/
theorem forall_of_readTimes {P : α → Prop} (h : ∀ input a rest, read input = some (a, rest) → P a)
    {count : ℕ} {input rest : List τ} {as : List α}
    (has : readTimes read count input = some (as, rest)) : ∀ a ∈ as, P a := by
  induction count generalizing input rest as with
  | zero =>
    obtain ⟨rfl, -⟩ := Prod.mk.inj (Option.some.inj has)
    simp
  | succ count ih =>
    simp only [readTimes, Option.bind_eq_bind, Option.bind_eq_some_iff, Prod.exists,
      Option.some.injEq, Prod.mk.injEq] at has
    obtain ⟨a, afterA, ha, as, afterAs, hrest, rfl, -⟩ := has
    exact List.forall_mem_cons.mpr ⟨h _ _ _ ha, ih hrest⟩

namespace Exact

/-- What is written is read, whatever stands behind it. -/
theorem read_append (h : Exact read write Fits) {a : α} (ha : Fits a) (rest : List τ) :
    read (write a ++ rest) = some (a, rest) := (h _ a rest).mpr ⟨rfl, ha⟩

/-- A reader in front of another computation. -/
theorem bind_eq_some (h : Exact read write Fits) {input : List τ}
    {f : α × List τ → Option β} {b : β} :
    (read input).bind f = some b
      ↔ ∃ a rest, input = write a ++ rest ∧ Fits a ∧ f (a, rest) = some b := by
  rw [Option.bind_eq_some_iff, Prod.exists]
  refine exists_congr fun a => exists_congr fun rest => ?_
  rw [h input a rest, and_assoc]

/-- **Reading a number of values is exact** for writing them one behind the other. -/
theorem readTimes_eq_some (h : Exact read write Fits) {count : ℕ} {input rest : List τ}
    {as : List α} :
    readTimes read count input = some (as, rest)
      ↔ as.length = count ∧ input = as.flatMap write ++ rest ∧ ∀ a ∈ as, Fits a := by
  constructor
  · intro hread
    refine and_assoc.mp ⟨?_, forall_of_readTimes (fun input a rest ha => ((h _ _ _).mp ha).2) hread⟩
    induction count generalizing input as with
    | zero =>
      obtain ⟨rfl, rfl⟩ := Prod.mk.inj (Option.some.inj hread)
      exact ⟨rfl, rfl⟩
    | succ count ih =>
      simp only [readTimes, Option.bind_eq_bind, Option.bind_eq_some_iff, Prod.exists,
        Option.some.injEq, Prod.mk.injEq] at hread
      obtain ⟨a, afterA, ha, as, afterAs, hrest, rfl, rfl⟩ := hread
      obtain ⟨rfl, -⟩ := (h _ _ _).mp ha
      obtain ⟨rfl, rfl⟩ := ih hrest
      exact ⟨rfl, by simp⟩
  · rintro ⟨rfl, rfl, hall⟩
    exact readTimes_append (fun a ha rest => h.read_append (hall a ha) rest) rest

end Exact

end Lsmkv
