import Mathlib.Tactic

/-!
# Binary search

`binarySearchBy cmp l` is the search of the Rust standard library over a slice: the window
`[base, base + size)` is halved until it holds one element, keeping the right half unless its first
element compares greater.  The loop never stops early, so of several equal elements it returns the
last.

What the search returns compares equal (`binarySearchBy_some`), and on a list whose elements
compare less, then equal, then greater, it finds an equal element whenever there is one
(`exists_binarySearchBy`).

`partitionPoint p l` is the same search for the boundary behind the elements that pass a test
(`partitionPoint_append`).
-/

namespace Lsmkv

variable {α : Type*} (cmp : α → Ordering) (l : List α)

/-- How the element at `i` compares.  Past the end everything compares greater. -/
def cmpAt (i : ℕ) : Ordering := (l[i]?).elim .gt cmp

/-- The halving loop.  The size shrinks in every turn, so the initial size is fuel enough. -/
def searchLoop : ℕ → ℕ → ℕ → ℕ
  | 0, base, _ => base
  | fuel + 1, base, size =>
    if 1 < size then
      let half := size / 2
      let mid := base + half
      searchLoop fuel (if cmpAt cmp l mid = .gt then base else mid) (size - half)
    else base

/-- `slice::binary_search_by`, with the index of an equal element or none. -/
def binarySearchBy : Option ℕ :=
  if l.length = 0 then none
  else
    let base := searchLoop cmp l l.length 0 l.length
    if cmpAt cmp l base = .eq then some base else none

/-- `slice::partition_point`: the search for a boundary, where elements that pass the test compare
less and the others greater. -/
def partitionPoint (p : α → Bool) (l : List α) : ℕ :=
  let cmp := fun x => if p x then Ordering.lt else .gt
  if l.length = 0 then 0
  else
    let base := searchLoop cmp l l.length 0 l.length
    if cmpAt cmp l base = .lt then base + 1 else base

variable {cmp l}

/-- The elements compare greater from `b` on, and not before. -/
def Splits (cmp : α → Ordering) (l : List α) (b : ℕ) : Prop :=
  ∀ i, cmpAt cmp l i = .gt ↔ b ≤ i

/-- The loop ends at the last element that does not compare greater, or at the start of its
window if there is none. -/
theorem searchLoop_eq {b : ℕ} (hb : Splits cmp l b) :
    ∀ {fuel base size : ℕ}, size ≤ fuel → 0 < size → base < b ∨ base = 0 → b ≤ base + size →
      searchLoop cmp l fuel base size = b - 1 := by
  intro fuel
  induction fuel with
  | zero => intro base size hfuel hsize; omega
  | succ fuel ih =>
    intro base size hfuel hsize hbase hend
    rw [searchLoop]
    split_ifs with hone
    · dsimp only
      by_cases hmid : cmpAt cmp l (base + size / 2) = .gt
      · rw [if_pos hmid]
        have := (hb _).mp hmid
        exact ih (by omega) (by omega) hbase (by omega)
      · rw [if_neg hmid]
        have := mt (hb _).mpr hmid
        exact ih (by omega) (by omega) (Or.inl (by omega)) (by omega)
    · omega

theorem cmpAt_of_length_le {i : ℕ} (h : l.length ≤ i) : cmpAt cmp l i = .gt := by
  rw [cmpAt, List.getElem?_eq_none h]
  rfl

theorem binarySearchBy_of_splits {b : ℕ} (hb : Splits cmp l b) :
    binarySearchBy cmp l = if cmpAt cmp l (b - 1) = .eq then some (b - 1) else none := by
  unfold binarySearchBy
  by_cases hlen : l.length = 0
  · rw [if_pos hlen, if_neg]
    rw [cmpAt_of_length_le (by omega)]
    decide
  · rw [if_neg hlen]
    have hle : b ≤ l.length := (hb _).mp (cmpAt_of_length_le le_rfl)
    dsimp only
    rw [searchLoop_eq hb le_rfl (by omega) (Or.inr rfl) (by omega)]

/-- What the search returns compares equal. -/
theorem binarySearchBy_some {i : ℕ} (h : binarySearchBy cmp l = some i) :
    ∃ x, l[i]? = some x ∧ cmp x = .eq := by
  unfold binarySearchBy at h
  split_ifs at h with hlen
  dsimp only at h
  split_ifs at h with heq
  obtain rfl := Option.some.inj h
  unfold cmpAt at heq
  cases hx : l[searchLoop cmp l l.length 0 l.length]? with
  | none => simp [hx] at heq
  | some x => exact ⟨x, rfl, by simpa [hx] using heq⟩

/-- Elements in order: less before equal, equal before greater. -/
def Ordered (cmp : α → Ordering) (l : List α) : Prop :=
  l.Pairwise fun x y => (cmp x = .gt → cmp y = .gt) ∧ (cmp x = .eq → cmp y ≠ .lt)

/-- Elements in order split at some index. -/
theorem Ordered.splits (h : Ordered cmp l) : ∃ b, Splits cmp l b := by
  induction l with
  | nil => exact ⟨0, fun i => by simp [cmpAt]⟩
  | cons x l ih =>
    obtain ⟨hx, hl⟩ := List.pairwise_cons.mp h
    obtain ⟨b, hb⟩ := ih hl
    by_cases hgt : cmp x = .gt
    · refine ⟨0, fun i => ⟨fun _ => Nat.zero_le i, fun _ => ?_⟩⟩
      unfold cmpAt
      cases hi : (x :: l)[i]? with
      | none => rfl
      | some y =>
        rcases List.mem_cons.mp (List.mem_of_getElem? hi) with rfl | hy
        · exact hgt
        · exact (hx y hy).1 hgt
    · refine ⟨b + 1, fun i => ?_⟩
      cases i with
      | zero => simp [cmpAt, hgt]
      | succ i => simpa [cmpAt] using hb i

/-- **The search finds an equal element** whenever there is one. -/
theorem exists_binarySearchBy (h : Ordered cmp l) {x : α} (hx : x ∈ l) (heq : cmp x = .eq) :
    ∃ i, binarySearchBy cmp l = some i := by
  obtain ⟨b, hb⟩ := h.splits
  obtain ⟨i, hi, hget⟩ := List.mem_iff_getElem.mp hx
  have hcmp : cmpAt cmp l i = .eq := by
    rw [cmpAt, List.getElem?_eq_getElem hi, hget]
    exact heq
  have hib : i < b := by
    by_contra hle
    rw [(hb i).mpr (not_lt.mp hle)] at hcmp
    cases hcmp
  have hlast : cmpAt cmp l (b - 1) = .eq := by
    rcases eq_or_lt_of_le (Nat.le_sub_one_of_lt hib) with hsame | hlt
    · rw [← hsame]
      exact hcmp
    · -- the last element that is not greater stands behind an equal one
      have hng : cmpAt cmp l (b - 1) ≠ .gt := fun hgt => by
        have := (hb _).mp hgt
        omega
      have hb1 : b - 1 < l.length := by
        by_contra hle
        exact hng (cmpAt_of_length_le (not_lt.mp hle))
      have hpair := List.pairwise_iff_getElem.mp h i (b - 1) hi hb1 hlt
      rw [hget] at hpair
      have hcmp' : cmpAt cmp l (b - 1) = cmp l[b - 1] := by
        rw [cmpAt, List.getElem?_eq_getElem hb1]
        rfl
      rw [hcmp'] at hng ⊢
      cases hc : cmp l[b - 1] with
      | lt => exact absurd hc (hpair.2 heq)
      | eq => rfl
      | gt => exact absurd hc hng
  exact ⟨b - 1, by rw [binarySearchBy_of_splits hb, if_pos hlast]⟩

/-- **The boundary** between the elements that pass the test and those that do not. -/
theorem partitionPoint_append {p : α → Bool} {l₁ l₂ : List α} (h₁ : ∀ x ∈ l₁, p x = true)
    (h₂ : ∀ x ∈ l₂, p x = false) : partitionPoint p (l₁ ++ l₂) = l₁.length := by
  have hleft : ∀ i, i < l₁.length → cmpAt (fun x => if p x then .lt else .gt)
      (l₁ ++ l₂) i = .lt := by
    intro i hi
    rw [cmpAt, List.getElem?_append_left hi, List.getElem?_eq_getElem hi, Option.elim_some,
      if_pos (h₁ _ (List.getElem_mem hi))]
  have hright : ∀ i, l₁.length ≤ i →
      cmpAt (fun x => if p x then .lt else .gt) (l₁ ++ l₂) i = .gt := by
    intro i hi
    rw [cmpAt, List.getElem?_append_right hi]
    cases hx : l₂[i - l₁.length]? with
    | none => rfl
    | some x =>
      rw [Option.elim_some, if_neg]
      rw [h₂ x (List.mem_of_getElem? hx)]
      exact Bool.false_ne_true
  have hsplits : Splits (fun x => if p x then .lt else .gt) (l₁ ++ l₂) l₁.length := by
    intro i
    refine ⟨fun hgt => ?_, hright i⟩
    by_contra hlt
    rw [hleft i (not_le.mp hlt)] at hgt
    cases hgt
  unfold partitionPoint
  dsimp only
  by_cases hlen : (l₁ ++ l₂).length = 0
  · rw [if_pos hlen]
    rw [List.length_append] at hlen
    omega
  · have hle : l₁.length ≤ (l₁ ++ l₂).length := by
      rw [List.length_append]
      omega
    rw [if_neg hlen, searchLoop_eq hsplits le_rfl (by omega) (Or.inr rfl) (by omega)]
    -- the loop stops one short of the boundary, except at the left end
    rcases Nat.eq_zero_or_pos l₁.length with hzero | hpos
    · rw [hright _ (by omega), if_neg (by decide), hzero]
    · rw [hleft _ (by omega), if_pos rfl]
      omega

end Lsmkv
