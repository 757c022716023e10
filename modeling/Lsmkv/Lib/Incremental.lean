import Mathlib.Data.List.Basic

/-!
# Incremental parsing

A parser is handed what has arrived of a stream.  It returns an item and the length of the input it
took, nothing as long as it needs more, or an error.  `drain` takes items off the front of the input
until there is none, and `feed` drains a buffer after every read of a stream, until an error.

The parser is `Determined` if an item is decided by the input it took, whatever stands behind that.
Then what has been taken stays taken when more arrives (`Takes.append`), and what is seen of a
stream does not depend on how it was cut into reads exactly if, wherever an item could start, an
error on part of what follows is all there is to see of it (`view_feed_eq_iff`).
-/

namespace Lsmkv

variable {β α ε : Type*} (parse : List β → Except ε (Option (α × ℕ)))

/-- Takes items off the front until the parser stops.  Returns them, the error if there was one, and
what is left. -/
def drain : ℕ → List β → List α × Option ε × List β
  | 0, input => ([], none, input)
  | fuel + 1, input =>
    match parse input with
    | .ok (some (a, used)) =>
      let (items, err, rest) := drain fuel (input.drop used)
      (a :: items, err, rest)
    | .ok none => ([], none, input)
    | .error err => ([], some err, input)

/-- The items taken from the reads of a stream, and the error that ended it. -/
def feed : List β → List (List β) → List α × Option ε
  | _, [] => ([], none)
  | buffer, read :: reads =>
    match drain parse ((buffer ++ read).length + 1) (buffer ++ read) with
    | (items, some err, _) => (items, some err)
    | (items, none, rest) =>
      let (more, err) := feed rest reads
      (items ++ more, err)

/-- An item takes something, no more than there is, and is decided by what it took. -/
structure Determined : Prop where
  used_pos : ∀ {x : List β} {a : α} {n : ℕ}, parse x = .ok (some (a, n)) → 0 < n
  used_le : ∀ {x : List β} {a : α} {n : ℕ}, parse x = .ok (some (a, n)) → n ≤ x.length
  decided : ∀ {x : List β} {a : α} {n : ℕ}, parse x = .ok (some (a, n)) →
    ∀ y, parse (x.take n ++ y) = .ok (some (a, n))

/-- The items are taken off the front of the input, one after the other. -/
inductive Takes : List β → List α → List β → Prop
  | nil (x : List β) : Takes x [] x
  | cons {x rest : List β} {a : α} {n : ℕ} {items : List α} (h : parse x = .ok (some (a, n)))
    (more : Takes (x.drop n) items rest) : Takes x (a :: items) rest

/-- Where the parser stops, and with which error. -/
def Stops (x : List β) (err : Option ε) : Prop :=
  parse x = match err with
    | none => .ok none
    | some err => .error err

variable {parse} {x y rest rest' : List β} {items items' : List α} {err err' : Option ε}

theorem Determined.append (hp : Determined parse) {a : α} {n : ℕ} (h : parse x = .ok (some (a, n)))
    (y : List β) : parse (x ++ y) = .ok (some (a, n)) := by
  have hdecided := hp.decided h (x.drop n ++ y)
  rwa [← List.append_assoc, List.take_append_drop] at hdecided

/-! ### Taking items -/

theorem Takes.trans (h : Takes parse x items rest) (h' : Takes parse rest items' rest') :
    Takes parse x (items ++ items') rest' := by
  induction h with
  | nil => exact h'
  | cons hparse _ ih => exact Takes.cons hparse (ih h')

/-- What was taken stays taken when more arrives. -/
theorem Takes.append (hp : Determined parse) (h : Takes parse x items rest) (y : List β) :
    Takes parse (x ++ y) items (rest ++ y) := by
  induction h with
  | nil => exact Takes.nil _
  | cons hparse _ ih =>
    refine Takes.cons (hp.append hparse y) ?_
    rw [List.drop_append_of_le_length (hp.used_le hparse)]
    exact ih

theorem Takes.length_le (hp : Determined parse) (h : Takes parse x items rest) :
    items.length + rest.length ≤ x.length := by
  induction h with
  | nil => simp
  | @cons x rest a n items hparse _ ih =>
    have hpos := hp.used_pos hparse
    have hle := hp.used_le hparse
    rw [List.length_drop] at ih
    rw [List.length_cons]
    omega

/-- What is taken is a first part of the input, and is taken from it whatever follows. -/
theorem Takes.exists_append (hp : Determined parse) (h : Takes parse x items rest) :
    ∃ taken, x = taken ++ rest ∧ ∀ y, Takes parse (taken ++ y) items y := by
  induction h with
  | nil => exact ⟨[], rfl, fun y => Takes.nil y⟩
  | @cons x rest a n items hparse _ ih =>
    obtain ⟨taken, hdrop, htakes⟩ := ih
    have hle := hp.used_le hparse
    refine ⟨x.take n ++ taken, ?_, fun y => ?_⟩
    · rw [List.append_assoc, ← hdrop, List.take_append_drop]
    · rw [List.append_assoc]
      refine Takes.cons (hp.decided hparse _) ?_
      rw [List.drop_left' (List.length_take_of_le hle)]
      exact htakes y

/-! ### Draining -/

theorem drain_eq (h : Takes parse x items rest) (hstops : Stops parse rest err) {fuel : ℕ}
    (hfuel : items.length < fuel) : drain parse fuel x = (items, err, rest) := by
  induction h generalizing fuel with
  | nil =>
    obtain ⟨fuel, rfl⟩ : ∃ m, fuel = m + 1 := ⟨fuel - 1, by simp at hfuel; omega⟩
    rw [drain, hstops]
    cases err with
    | none => rfl
    | some err => rfl
  | cons hparse _ ih =>
    rw [List.length_cons] at hfuel
    obtain ⟨fuel, rfl⟩ : ∃ m, fuel = m + 1 := ⟨fuel - 1, by omega⟩
    rw [drain, hparse]
    dsimp only
    rw [ih hstops (by omega)]

/-- Draining stops where the parser does. -/
theorem exists_takes (hp : Determined parse) (x : List β) :
    ∃ items err rest, Takes parse x items rest ∧ Stops parse rest err := by
  generalize hlen : x.length = len
  induction len using Nat.strongRecOn generalizing x with
  | ind len ih =>
    cases hparse : parse x with
    | error err => exact ⟨[], some err, x, Takes.nil x, hparse⟩
    | ok item =>
      cases item with
      | none => exact ⟨[], none, x, Takes.nil x, hparse⟩
      | some item =>
        obtain ⟨a, n⟩ := item
        have hpos := hp.used_pos hparse
        have hle := hp.used_le hparse
        obtain ⟨items, err, rest, htakes, hstops⟩ := ih (x.drop n).length
          (by rw [List.length_drop]; omega) (x.drop n) rfl
        exact ⟨a :: items, err, rest, Takes.cons hparse htakes, hstops⟩

theorem drain_eq' (hp : Determined parse) (h : Takes parse x items rest)
    (hstops : Stops parse rest err) : drain parse (x.length + 1) x = (items, err, rest) :=
  drain_eq h hstops (by have := h.length_le hp; omega)

theorem Stops.unique (h : Stops parse x err) (h' : Stops parse x err') : err = err' := by
  unfold Stops at h h'
  rw [h] at h'
  cases err with
  | none =>
    cases err' with
    | none => rfl
    | some err' => cases h'
  | some err =>
    cases err' with
    | none => cases h'
    | some err' => rw [Except.error.inj h']

theorem Stops.not_item (h : Stops parse x err) {a : α} {n : ℕ} : parse x ≠ .ok (some (a, n)) := by
  unfold Stops at h
  rw [h]
  cases err with
  | none => simp
  | some err => simp

/-- Of two ways to take items off one input, the one that stops is the longer one. -/
theorem Takes.of_stops (h : Takes parse x items rest) (hstops : Stops parse rest err)
    (h' : Takes parse x items' rest') :
    ∃ more, items = items' ++ more ∧ Takes parse rest' more rest := by
  induction h' generalizing items with
  | nil => exact ⟨items, rfl, h⟩
  | cons hparse' _ ih =>
    cases h with
    | nil => exact absurd hparse' hstops.not_item
    | cons hparse more =>
      rw [hparse] at hparse'
      obtain ⟨rfl, rfl⟩ := Prod.mk.inj (Option.some.inj (Except.ok.inj hparse'))
      obtain ⟨left, rfl, htakes⟩ := ih more
      exact ⟨left, rfl, htakes⟩

/-! ### Feeding -/

theorem feed_cons_error (hp : Determined parse) {buffer read : List β} (hx : buffer ++ read = x)
    {e : ε} (h : Takes parse x items rest) (hstops : Stops parse rest (some e))
    (reads : List (List β)) : feed parse buffer (read :: reads) = (items, some e) := by
  rw [feed, hx, drain_eq' hp h hstops]

theorem feed_cons (hp : Determined parse) {buffer read : List β} (hx : buffer ++ read = x)
    (h : Takes parse x items rest) (hstops : Stops parse rest none) (reads : List (List β)) :
    feed parse buffer (read :: reads)
      = (items ++ (feed parse rest reads).1, (feed parse rest reads).2) := by
  rw [feed, hx, drain_eq' hp h hstops]

/-- One read takes what draining takes. -/
theorem feed_singleton (hp : Determined parse) (h : Takes parse x items rest)
    (hstops : Stops parse rest err) : feed parse [] [x] = (items, err) := by
  cases err with
  | none =>
    rw [feed_cons hp (List.nil_append x) h hstops, feed, List.append_nil]
  | some e => exact feed_cons_error hp (List.nil_append x) h hstops []

section view

variable {γ δ : Type*} (f : α → Option γ) (g : ε → δ)

/-- What a reader of the stream sees: some of the items, and a view of the error. -/
def view (result : List α × Option ε) : List γ × Option δ := (result.1.filterMap f, result.2.map g)

/-- Wherever an item could start in the stream, an error on a part of what follows is all that can
be seen of it. -/
def ErrorsLast (parse : List β → Except ε (Option (α × ℕ))) (stream : List β) : Prop :=
  ∀ items x y e, Takes parse stream items (x ++ y) → parse x = .error e →
    view f g (feed parse [] [x ++ y]) = ([], some (g e))

variable {f g}

theorem ErrorsLast.of_takes (h : ErrorsLast f g parse x) (htakes : Takes parse x items rest) :
    ErrorsLast f g parse rest :=
  fun more y z e hmore => h (items ++ more) y z e (htakes.trans hmore)

theorem view_append (items : List α) (result : List α × Option ε) :
    view f g (items ++ result.1, result.2)
      = (items.filterMap f ++ (view f g result).1, (view f g result).2) := by
  rw [view, List.filterMap_append, view]

/-- The reads of a stream in which errors last show what the whole stream shows. -/
theorem view_feed (hp : Determined parse) {buffer : List β} {reads : List (List β)}
    (hlast : ErrorsLast f g parse (buffer ++ reads.flatten)) (hbuffer : Stops parse buffer none)
    (h : Takes parse (buffer ++ reads.flatten) items rest) (hstops : Stops parse rest err) :
    view f g (feed parse buffer reads) = view f g (items, err) := by
  induction reads generalizing buffer items with
  | nil =>
    rw [List.flatten_nil, List.append_nil] at h
    cases h with
    | nil => rw [feed, hbuffer.unique hstops]
    | cons hparse => exact absurd hparse hbuffer.not_item
  | cons read reads ih =>
    obtain ⟨first, err₁, left, htakes, hstops₁⟩ := exists_takes hp (buffer ++ read)
    have hwhole : buffer ++ (read :: reads).flatten = buffer ++ read ++ reads.flatten := by
      rw [List.flatten_cons, List.append_assoc]
    rw [hwhole] at h hlast
    have htakes' := htakes.append hp reads.flatten
    obtain ⟨more, rfl, hmore⟩ := h.of_stops hstops htakes'
    rw [view_append first (more, err)]
    cases err₁ with
    | some e =>
      -- nothing more would be seen if the rest of the stream were there
      have herror := hlast first left _ e htakes' hstops₁
      rw [feed_singleton hp hmore hstops] at herror
      rw [feed_cons_error hp rfl htakes hstops₁, herror, List.append_nil, view, Option.map_some]
    | none =>
      rw [feed_cons hp rfl htakes hstops₁, view_append,
        ih (hlast.of_takes htakes') hstops₁ hmore]

/-- **When the reads of a stream do not matter**: exactly if errors last. -/
theorem view_feed_eq_iff (hp : Determined parse) (hnil : parse [] = .ok none) (stream : List β) :
    (∀ reads : List (List β), (∀ read ∈ reads, read ≠ []) → reads.flatten = stream →
        view f g (feed parse [] reads) = view f g (feed parse [] [stream]))
      ↔ ErrorsLast f g parse stream := by
  obtain ⟨items, err, rest, htakes, hstops⟩ := exists_takes hp stream
  rw [feed_singleton hp htakes hstops]
  constructor
  · intro h first x y e hfirst herror
    obtain ⟨taken, rfl, hagain⟩ := hfirst.exists_append hp
    by_cases hy : y = []
    · rw [hy, List.append_nil, feed_cons_error hp (List.nil_append x) (Takes.nil x) herror]
      rfl
    have hx : x ≠ [] := by
      rintro rfl
      rw [hnil] at herror
      cases herror
    -- cut the stream where the error shows
    have hreads : view f g (feed parse [] [taken ++ x, y]) = view f g (items, err) := by
      refine h [taken ++ x, y] (fun read hread => ?_) (by simp)
      rcases List.mem_pair.mp hread with rfl | rfl
      · simp [hx]
      · exact hy
    obtain ⟨more, rfl, hmore⟩ := htakes.of_stops hstops (hagain (x ++ y))
    rw [feed_cons_error hp (List.nil_append _) (hagain x) herror, view_append first (more, err),
      view, Option.map_some] at hreads
    obtain ⟨hitems, herr⟩ := Prod.mk.inj hreads
    rw [feed_singleton hp hmore hstops]
    exact Prod.ext (List.self_eq_append_right.mp hitems) herr.symm
  · intro hlast reads hne hflatten
    rw [← hflatten] at htakes hlast
    exact view_feed hp hlast hnil htakes hstops

end view

end Lsmkv
