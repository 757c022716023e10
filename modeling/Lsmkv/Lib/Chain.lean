import Mathlib.Data.List.Nodup

/-!
# Chains of links

A linked list is a function `next : α → Option α` that gives the successor of an element, or `none`
at the end.  `Chain next a l` says that following the links from `a` visits exactly `l` and then
ends, and `follow` computes that list.  The links determine it (`Chain.follow_eq`), and redirecting
one of them through a new element inserts the element there (`Chain.splice`).
-/

namespace Lsmkv

variable {α : Type*} {next next' : α → Option α}

/-- Following the links from `a` visits exactly `l` and then ends. -/
def Chain (next : α → Option α) : α → List α → Prop
  | a, [] => next a = none
  | a, b :: l => next a = some b ∧ Chain next b l

/-- The elements the links lead to, at most `fuel` of them. -/
def follow (next : α → Option α) : ℕ → α → List α
  | 0, _ => []
  | fuel + 1, a =>
    match next a with
    | none => []
    | some b => b :: follow next fuel b

namespace Chain

theorem next_eq {a : α} {l : List α} (h : Chain next a l) : next a = l.head? := by
  cases l with
  | nil => exact h
  | cons b l => exact h.1

theorem follow_eq {a : α} {l : List α} (h : Chain next a l) {fuel : ℕ} (hfuel : l.length ≤ fuel) :
    follow next fuel a = l := by
  induction l generalizing a fuel with
  | nil =>
    cases fuel with
    | zero => rfl
    | succ fuel => rw [follow, h.next_eq]; rfl
  | cons b l ih =>
    obtain ⟨hnext, hrest⟩ := h
    rw [List.length_cons] at hfuel
    cases fuel with
    | zero => omega
    | succ fuel =>
      rw [follow, hnext]
      exact congrArg (b :: ·) (ih hrest (by omega))

/-- Only the links of the elements on the chain matter. -/
theorem congr {a : α} {l : List α} (h : Chain next a l) (hsame : ∀ x ∈ a :: l, next' x = next x) :
    Chain next' a l := by
  induction l generalizing a with
  | nil => exact (hsame a List.mem_cons_self).trans h
  | cons b l ih =>
    obtain ⟨hnext, hrest⟩ := h
    exact ⟨(hsame a List.mem_cons_self).trans hnext,
      ih hrest fun x hx => hsame x (List.mem_cons_of_mem _ hx)⟩

/-- A chain can be taken up at any of its elements. -/
theorem split {a x : α} {l : List α} (h : Chain next a l) (hx : x ∈ a :: l) :
    ∃ front rest, a :: l = front ++ x :: rest ∧ Chain next x rest := by
  induction l generalizing a with
  | nil =>
    obtain rfl := List.mem_singleton.mp hx
    exact ⟨[], [], rfl, h⟩
  | cons b l ih =>
    rcases List.mem_cons.mp hx with rfl | hx
    · exact ⟨[], b :: l, rfl, h⟩
    · obtain ⟨front, rest, hsplit, hchain⟩ := ih h.2 hx
      exact ⟨a :: front, rest, by rw [hsplit, List.cons_append], hchain⟩

/-- **Splicing.**  When the link of `x` is redirected to a new element, whose own link goes to the
old successor of `x`, the chain visits the new element right behind `x`. -/
theorem splice {a x n : α} {l front rest : List α} (h : Chain next a l)
    (hsplit : a :: l = front ++ x :: rest) (hnodup : (a :: l).Nodup)
    (hself : next' x = some n) (hnew : next' n = rest.head?)
    (hother : ∀ y ∈ a :: l, y ≠ x → next' y = next y) :
    ∃ l', Chain next' a l' ∧ a :: l' = front ++ x :: n :: rest := by
  induction front generalizing a l with
  | nil =>
    obtain ⟨rfl, rfl⟩ := List.cons.inj hsplit
    refine ⟨n :: l, ⟨hself, ?_⟩, rfl⟩
    cases l with
    | nil => exact hnew
    | cons b l =>
      refine ⟨hnew, h.2.congr fun y hy => hother y (List.mem_cons_of_mem _ hy) ?_⟩
      rintro rfl
      exact (List.nodup_cons.mp hnodup).1 hy
  | cons a' front ih =>
    rw [List.cons_append] at hsplit
    obtain ⟨rfl, htail⟩ := List.cons.inj hsplit
    have hx : x ∈ l := by rw [htail]; simp
    obtain ⟨hnot, hnodup⟩ := List.nodup_cons.mp hnodup
    -- the chain goes on to the element whose link is redirected
    cases l with
    | nil => cases hx
    | cons b l =>
      obtain ⟨l', hchain, hl'⟩ := ih h.2 htail hnodup
        fun y hy => hother y (List.mem_cons_of_mem _ hy)
      refine ⟨b :: l', ⟨?_, hchain⟩, by rw [hl', List.cons_append]⟩
      rw [hother a List.mem_cons_self fun heq => hnot (heq ▸ hx), h.1]

end Chain

/-- What is put behind `x` keeps a list in order if it belongs between `x` and what follows. -/
theorem pairwise_splice {R : α → α → Prop} (htrans : ∀ {a b c}, R a b → R b c → R a c) {x n : α}
    {front rest : List α} (h : (front ++ x :: rest).Pairwise R) (hx : R x n)
    (hn : ∀ y ∈ rest.head?, R n y) : (front ++ x :: n :: rest).Pairwise R := by
  obtain ⟨hfront, hrest, hcross⟩ := List.pairwise_append.mp h
  obtain ⟨hxrest, hrest⟩ := List.pairwise_cons.mp hrest
  have hnrest : ∀ y ∈ rest, R n y := by
    cases rest with
    | nil => simp
    | cons b rest =>
      have hb : R n b := hn b rfl
      intro y hy
      rcases List.mem_cons.mp hy with rfl | hy
      · exact hb
      · exact htrans hb ((List.pairwise_cons.mp hrest).1 y hy)
  refine List.pairwise_append.mpr ⟨hfront, ?_, fun a ha y hy => ?_⟩
  · refine List.pairwise_cons.mpr ⟨fun y hy => ?_, List.pairwise_cons.mpr ⟨hnrest, hrest⟩⟩
    rcases List.mem_cons.mp hy with rfl | hy
    · exact hx
    · exact hxrest y hy
  · have hax := hcross a ha x List.mem_cons_self
    rcases List.mem_cons.mp hy with rfl | hy
    · exact hax
    · rcases List.mem_cons.mp hy with rfl | hy
      · exact htrans hax hx
      · exact hcross a ha y (List.mem_cons_of_mem _ hy)

end Lsmkv
