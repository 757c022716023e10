import Lsmkv.Lib.Incremental
import Lsmkv.Server.Text

/-!
# The wire protocol (`resp.rs`)

A request is an array of bulk strings, or a bare line of words.  `parse` is handed whatever has
arrived and returns a request and its length, or that more is needed, or an error.

A request is decided by the bytes it took (`determined_parse`).  An error in an array is one
whatever follows (`parseArray_error_append`), but the error for a line that is too long is not: it
is reported for want of a line end, and the line end may still come (`parse_error_append_iff`).
-/

namespace Lsmkv.Server

/-- `MAX_ARGS`. -/
def maxArgs : ℕ := 1024 * 1024

/-- `MAX_BULK`. -/
def maxBulk : ℕ := 512 * 1024 * 1024

/-- `MAX_INLINE`. -/
def maxInline : ℕ := 64 * 1024

/-- A request that does not follow the protocol. -/
structure ProtocolError where
  message : String
  deriving DecidableEq, Repr

def ProtocolError.new (detail : String) : ProtocolError := ⟨"Protocol error: " ++ detail⟩

/-- A command and its arguments. -/
structure Command where
  name : String
  args : List Bytes
  deriving DecidableEq, Repr

/-- One request read off a connection. -/
inductive Request where
  | command (command : Command)
  /-- An empty array, or an empty line. -/
  | empty
  deriving DecidableEq, Repr

def crlf : Bytes := [0x0D, 0x0A]

/-! ### Replies -/

/-- What one reply can be. -/
inductive Reply where
  | simple (text : String)
  | error (text : String)
  | integer (value : ℤ)
  | bulk (bytes : Bytes)
  | nil
  | array (items : List Reply)

/-- The bytes of a text. -/
def utf8 (text : String) : Bytes := text.toUTF8.data.toList

mutual

/-- What `Reply::encode` appends to its output. -/
def Reply.encode : Reply → Bytes
  | .simple text => 0x2B :: utf8 text ++ crlf
  | .error text => 0x2D :: utf8 text ++ crlf
  | .integer value => 0x3A :: decimalInt value ++ crlf
  | .bulk bytes => 0x24 :: decimal bytes.length ++ crlf ++ bytes ++ crlf
  | .nil => [0x24, 0x2D, 0x31, 0x0D, 0x0A]
  | .array items => 0x2A :: decimal items.length ++ crlf ++ Reply.encodeAll items

/-- The loop of `Reply::encode` over the items of an array. -/
def Reply.encodeAll : List Reply → Bytes
  | [] => []
  | item :: items => item.encode ++ Reply.encodeAll items

end

/-! ### Requests -/

/-- `windows(2).position(|pair| pair == b"\r\n")`. -/
def findCrlf : Bytes → Option ℕ
  | a :: b :: rest =>
    if a = 0x0D ∧ b = 0x0A then some 0 else (findCrlf (b :: rest)).map (· + 1)
  | _ => none

/-- The line starting at `start`, without its terminator, and the offset past it. -/
def line (input : Bytes) (start : ℕ) : Option (Bytes × ℕ) :=
  if start ≤ input.length then
    let rest := input.drop start
    (findCrlf rest).map fun pos => (rest.take pos, start + pos + 2)
  else none

/-- A length or a number of arguments: a number that is not negative and not too large. -/
def bounded (limit : ℕ) (value : ℤ) : Option ℕ :=
  if 0 ≤ value ∧ value.toNat ≤ limit then some value.toNat else none

/-- Reads one `$len\r\nbytes\r\n` at `start`. -/
def bulk (input : Bytes) (start : ℕ) : Except ProtocolError (Option (Bytes × ℕ)) :=
  match input[start]? with
  | none => .ok none
  | some b =>
    if b ≠ 0x24 then .error (.new "expected '$', got something else")
    else
      match line input (start + 1) with
      | none => .ok none
      | some (head, pos) =>
        match (integer head).bind (bounded maxBulk) with
        | none => .error (.new "invalid bulk length")
        | some len =>
          -- the payload and the terminator that follows it both have to be here
          if input.length < pos + len + 2 then .ok none
          else if (input.drop (pos + len)).take 2 ≠ crlf then .error (.new "unbalanced bulk string")
          else .ok (some ((input.drop pos).take len, pos + len + 2))

/-- The loop of `parse_array` over the arguments. -/
def bulks (input : Bytes) : ℕ → ℕ → Except ProtocolError (Option (List Bytes × ℕ))
  | 0, pos => .ok (some ([], pos))
  | count + 1, pos =>
    match bulk input pos with
    | .error err => .error err
    | .ok none => .ok none
    | .ok (some (bytes, next)) =>
      match bulks input count next with
      | .error err => .error err
      | .ok none => .ok none
      | .ok (some (args, last)) => .ok (some (bytes :: args, last))

section

variable (upper : Char → List Char)

/-- The command that a list of strings names. -/
def commandOf (args : List Bytes) : Command := ⟨commandName upper (args.headD []), args.tail⟩

def parseArray (input : Bytes) : Except ProtocolError (Option (Request × ℕ)) :=
  match line input 1 with
  | none => .ok none
  | some (head, pos) =>
    match integer head with
    | none => .error (.new "invalid multibulk length")
    | some count =>
      if count ≤ 0 then .ok (some (.empty, pos))
      else
        match bounded maxArgs count with
        | none => .error (.new "invalid multibulk length")
        | some count =>
          match bulks input count pos with
          | .error err => .error err
          | .ok none => .ok none
          | .ok (some (args, last)) => .ok (some (.command (commandOf upper args), last))

/-- `u8::is_ascii_whitespace`. -/
def isWhitespace (b : UInt8) : Bool := b = 0x09 || b = 0x0A || b = 0x0C || b = 0x0D || b = 0x20

/-- The words of a line. -/
def words (bytes : Bytes) : List Bytes :=
  let bytes := if bytes.getLast? = some 0x0D then bytes.dropLast else bytes
  (bytes.splitOnP isWhitespace).filter (· ≠ [])

/-- Reads a bare line of space-separated words. -/
def parseInline (input : Bytes) : Except ProtocolError (Option (Request × ℕ)) :=
  match input.findIdx? (· = 0x0A) with
  | none => if maxInline < input.length then .error (.new "too big inline request") else .ok none
  | some pos =>
    match words (input.take pos) with
    | [] => .ok (some (.empty, pos + 1))
    | name :: args => .ok (some (.command (commandOf upper (name :: args)), pos + 1))

/-- Reads one request off the front of `input`. -/
def parse (input : Bytes) : Except ProtocolError (Option (Request × ℕ)) :=
  match input.head? with
  | none => .ok none
  | some first => if first = 0x2A then parseArray upper input else parseInline upper input

end

/-! ### What a request depends on -/

section agree

variable {x x' : Bytes} {n : ℕ}

theorem le_length_of_take (h : x'.take n = x.take n) (hn : n ≤ x.length) : n ≤ x'.length := by
  have hlen := congrArg List.length h
  rw [List.length_take_of_le hn, List.length_take] at hlen
  omega

theorem take_of_take (h : x'.take n = x.take n) {m : ℕ} (hm : m ≤ n) : x'.take m = x.take m := by
  have htake := congrArg (List.take m) h
  rwa [List.take_take, List.take_take, Nat.min_eq_left hm] at htake

theorem take_drop_of_take (h : x'.take n = x.take n) {m k : ℕ} (hmk : m + k ≤ n) :
    (x'.drop m).take k = (x.drop m).take k := by
  rw [List.take_drop, List.take_drop, take_of_take h hmk]

theorem getElem?_of_take (h : x'.take n = x.take n) {i : ℕ} (hi : i < n) : x'[i]? = x[i]? := by
  have hget := congrArg (·[i]?) h
  rwa [List.getElem?_take_of_lt hi, List.getElem?_take_of_lt hi] at hget

end agree

/-- A line end is found in what stands before it and in itself. -/
theorem findCrlf_eq_some {x : Bytes} {pos : ℕ} (h : findCrlf x = some pos) :
    pos + 2 ≤ x.length ∧ ∀ x', x'.take (pos + 2) = x.take (pos + 2) → findCrlf x' = some pos := by
  induction x generalizing pos with
  | nil => cases h
  | cons a x ih =>
    cases x with
    | nil => cases h
    | cons b rest =>
      rw [findCrlf] at h
      -- both bytes of the input are in the part the two agree on
      have hstart : ∀ {k : ℕ} {x' : Bytes}, x'.take (k + 2) = (a :: b :: rest).take (k + 2) →
          ∃ rest', x' = a :: b :: rest' ∧ (b :: rest').take (k + 1) = (b :: rest).take (k + 1) := by
        intro k x' hx'
        cases x' with
        | nil => cases hx'
        | cons a' x' =>
          obtain ⟨rfl, htail⟩ := List.cons.inj hx'
          cases x' with
          | nil => cases htail
          | cons b' x' =>
            obtain ⟨rfl, -⟩ := List.cons.inj htail
            exact ⟨x', rfl, htail⟩
      split_ifs at h with hcrlf
      · obtain rfl := Option.some.inj h
        refine ⟨by simp, fun x' hx' => ?_⟩
        obtain ⟨rest', rfl, -⟩ := hstart hx'
        rw [findCrlf, if_pos hcrlf]
      · obtain ⟨pos, hpos, rfl⟩ := Option.map_eq_some_iff.mp h
        obtain ⟨hle, hfind⟩ := ih hpos
        refine ⟨by rw [List.length_cons]; omega, fun x' hx' => ?_⟩
        obtain ⟨rest', rfl, hrest'⟩ := hstart hx'
        rw [findCrlf, if_neg hcrlf, hfind _ hrest', Option.map_some]

theorem line_eq_some {x head : Bytes} {start next : ℕ} (h : line x start = some (head, next)) :
    start + 2 ≤ next ∧ next ≤ x.length
      ∧ ∀ x', x'.take next = x.take next → line x' start = some (head, next) := by
  unfold line at h
  split_ifs at h with hstart
  obtain ⟨pos, hpos, hline⟩ := Option.map_eq_some_iff.mp h
  obtain ⟨rfl, rfl⟩ := Prod.mk.inj hline
  obtain ⟨hle, hfind⟩ := findCrlf_eq_some hpos
  rw [List.length_drop] at hle
  refine ⟨by omega, by omega, fun x' hx' => ?_⟩
  have hlen := le_length_of_take hx' (by omega)
  have hagree : (x'.drop start).take (pos + 2) = (x.drop start).take (pos + 2) :=
    take_drop_of_take hx' (by omega)
  rw [line, if_pos (by omega)]
  dsimp only
  rw [hfind _ hagree, Option.map_some, take_of_take hagree (Nat.le_add_right pos 2)]

theorem bulk_eq_some {x bytes : Bytes} {start next : ℕ}
    (h : bulk x start = .ok (some (bytes, next))) :
    start < next ∧ next ≤ x.length
      ∧ ∀ x', x'.take next = x.take next → bulk x' start = .ok (some (bytes, next)) := by
  unfold bulk at h
  split at h
  · cases h
  · rename_i b hb
    split_ifs at h with hdollar
    split at h
    · cases h
    · rename_i head pos hline
      split at h
      · cases h
      · rename_i len hlen
        split_ifs at h with hshort hend
        · cases h
        obtain ⟨rfl, rfl⟩ := Prod.mk.inj (Option.some.inj (Except.ok.inj h))
        obtain ⟨hpos, hposLe, hagain⟩ := line_eq_some hline
        refine ⟨by omega, by omega, fun x' hx' => ?_⟩
        have hlen' := le_length_of_take hx' (by omega)
        rw [bulk, getElem?_of_take hx' (by omega), hb]
        dsimp only
        rw [if_neg hdollar, hagain x' (take_of_take hx' (by omega))]
        dsimp only
        rw [hlen]
        dsimp only
        rw [if_neg (by omega), take_drop_of_take hx' (by omega), if_neg hend,
          take_drop_of_take hx' (by omega)]

theorem bulks_eq_some {x : Bytes} {count pos last : ℕ} {args : List Bytes} (hpos : pos ≤ x.length)
    (h : bulks x count pos = .ok (some (args, last))) :
    pos ≤ last ∧ last ≤ x.length
      ∧ ∀ x', x'.take last = x.take last → bulks x' count pos = .ok (some (args, last)) := by
  induction count generalizing pos args with
  | zero =>
    obtain ⟨rfl, rfl⟩ := Prod.mk.inj (Option.some.inj (Except.ok.inj h))
    exact ⟨le_rfl, hpos, fun _ _ => rfl⟩
  | succ count ih =>
    rw [bulks] at h
    split at h
    · cases h
    · cases h
    · rename_i bytes next hbulk
      split at h
      · cases h
      · cases h
      · rename_i args last' hbulks
        obtain ⟨rfl, rfl⟩ := Prod.mk.inj (Option.some.inj (Except.ok.inj h))
        obtain ⟨hlt, hle, hagain⟩ := bulk_eq_some hbulk
        obtain ⟨hlt', hle', hagain'⟩ := ih hle hbulks
        refine ⟨by omega, hle', fun x' hx' => ?_⟩
        rw [bulks, hagain x' (take_of_take hx' hlt')]
        dsimp only
        rw [hagain' x' hx']

section

variable {upper : Char → List Char} {x : Bytes} {request : Request} {n : ℕ}

theorem parseArray_eq_some (h : parseArray upper x = .ok (some (request, n))) :
    1 < n ∧ n ≤ x.length
      ∧ ∀ x', x'.take n = x.take n → parseArray upper x' = .ok (some (request, n)) := by
  unfold parseArray at h
  split at h
  · cases h
  · rename_i head pos hline
    obtain ⟨hpos, hposLe, hagain⟩ := line_eq_some hline
    split at h
    · cases h
    · rename_i count hcount
      split_ifs at h with hempty
      · obtain ⟨rfl, rfl⟩ := Prod.mk.inj (Option.some.inj (Except.ok.inj h))
        refine ⟨by omega, hposLe, fun x' hx' => ?_⟩
        rw [parseArray, hagain x' hx']
        dsimp only
        rw [hcount]
        dsimp only
        rw [if_pos hempty]
      · split at h
        · cases h
        · rename_i count' hbounded
          split at h
          · cases h
          · cases h
          · rename_i args last hbulks
            obtain ⟨rfl, rfl⟩ := Prod.mk.inj (Option.some.inj (Except.ok.inj h))
            obtain ⟨hlt, hle, hagain'⟩ := bulks_eq_some hposLe hbulks
            refine ⟨by omega, hle, fun x' hx' => ?_⟩
            rw [parseArray, hagain x' (take_of_take hx' hlt)]
            dsimp only
            rw [hcount]
            dsimp only
            rw [if_neg hempty, hbounded]
            dsimp only
            rw [hagain' x' hx']

theorem findIdx?_of_take {p : UInt8 → Bool} {pos : ℕ} (h : x.findIdx? p = some pos) {x' : Bytes}
    (hx' : x'.take (pos + 1) = x.take (pos + 1)) : x'.findIdx? p = some pos := by
  have hfind : (x.take (pos + 1)).findIdx? p = some pos := by
    rw [List.findIdx?_take, h]
    simp
  rw [← List.take_append_drop (pos + 1) x', hx', List.findIdx?_append, hfind, Option.some_or]

variable (upper) in
theorem parseInline_of_findIdx? {pos : ℕ} (h : x.findIdx? (· = 0x0A) = some pos) :
    ∃ request, ∀ x', x'.take (pos + 1) = x.take (pos + 1) →
      parseInline upper x' = .ok (some (request, pos + 1)) := by
  have hwords : ∀ x', x'.take (pos + 1) = x.take (pos + 1) →
      parseInline upper x' = match words (x.take pos) with
        | [] => .ok (some (.empty, pos + 1))
        | name :: args => .ok (some (.command (commandOf upper (name :: args)), pos + 1)) := by
    intro x' hx'
    rw [parseInline, findIdx?_of_take h hx']
    dsimp only
    rw [take_of_take hx' (Nat.le_succ pos)]
  cases hline : words (x.take pos) with
  | nil => exact ⟨.empty, fun x' hx' => by rw [hwords x' hx', hline]⟩
  | cons name args => exact ⟨_, fun x' hx' => by rw [hwords x' hx', hline]⟩

/-- An inline request ends with the first line feed. -/
theorem exists_of_parseInline (h : parseInline upper x = .ok (some (request, n))) :
    ∃ pos, x.findIdx? (· = 0x0A) = some pos ∧ n = pos + 1
      ∧ ∀ x', x'.take n = x.take n → parseInline upper x' = .ok (some (request, n)) := by
  cases hpos : x.findIdx? (· = 0x0A) with
  | none =>
    rw [parseInline, hpos] at h
    dsimp only at h
    split_ifs at h
    cases h
  | some pos =>
    obtain ⟨request', hagain⟩ := parseInline_of_findIdx? upper hpos
    rw [hagain x rfl] at h
    obtain ⟨rfl, rfl⟩ := Prod.mk.inj (Option.some.inj (Except.ok.inj h))
    exact ⟨pos, rfl, rfl, hagain⟩

theorem parseInline_eq_some (h : parseInline upper x = .ok (some (request, n))) :
    0 < n ∧ n ≤ x.length
      ∧ ∀ x', x'.take n = x.take n → parseInline upper x' = .ok (some (request, n)) := by
  obtain ⟨pos, hpos, rfl, hagain⟩ := exists_of_parseInline h
  obtain ⟨hlt, -⟩ := List.findIdx?_eq_some_iff_getElem.mp hpos
  exact ⟨Nat.succ_pos pos, hlt, hagain⟩

theorem parse_array (h : x.head? = some 0x2A) : parse upper x = parseArray upper x := by
  rw [parse, h]
  rfl

theorem parse_inline {first : UInt8} (h : x.head? = some first) (hfirst : first ≠ 0x2A) :
    parse upper x = parseInline upper x := by
  rw [parse, h]
  exact if_neg hfirst

theorem parse_eq_some (h : parse upper x = .ok (some (request, n))) :
    0 < n ∧ n ≤ x.length
      ∧ ∀ x', x'.take n = x.take n → parse upper x' = .ok (some (request, n)) := by
  -- the first byte is in the part the two agree on
  have hhead : ∀ {x' : Bytes}, 0 < n → x'.take n = x.take n → x'.head? = x.head? := by
    intro x' hn hx'
    rw [List.head?_eq_getElem?, List.head?_eq_getElem?, getElem?_of_take hx' hn]
  cases hfirst : x.head? with
  | none =>
    rw [parse, hfirst] at h
    cases h
  | some first =>
    by_cases harray : first = 0x2A
    · subst harray
      rw [parse_array hfirst] at h
      obtain ⟨hn, hle, hagain⟩ := parseArray_eq_some h
      refine ⟨by omega, hle, fun x' hx' => ?_⟩
      rw [parse_array ((hhead (by omega) hx').trans hfirst), hagain x' hx']
    · rw [parse_inline hfirst harray] at h
      obtain ⟨hn, hle, hagain⟩ := parseInline_eq_some h
      refine ⟨hn, hle, fun x' hx' => ?_⟩
      rw [parse_inline ((hhead hn hx').trans hfirst) harray, hagain x' hx']

/-- **A request is decided by the bytes it took.** -/
theorem determined_parse : Determined (parse upper) where
  used_pos h := (parse_eq_some h).1
  used_le h := (parse_eq_some h).2.1
  decided h y := by
    obtain ⟨-, hle, hagain⟩ := parse_eq_some h
    refine hagain _ ?_
    rw [List.take_left' (List.length_take_of_le hle)]

theorem parse_nil : parse upper [] = .ok none := rfl

end

/-! ### Errors -/

theorem bulk_error_append {x : Bytes} {start : ℕ} {e : ProtocolError} (h : bulk x start = .error e)
    (y : Bytes) : bulk (x ++ y) start = .error e := by
  unfold bulk at h
  split at h
  · cases h
  · rename_i b hb
    have hget : (x ++ y)[start]? = some b := by
      rw [List.getElem?_append_left (List.getElem?_eq_some_iff.mp hb).1, hb]
    rw [bulk, hget]
    dsimp only
    split_ifs at h ⊢ with hdollar
    · exact h
    split at h
    · cases h
    · rename_i head pos hline
      obtain ⟨-, hle, hagain⟩ := line_eq_some hline
      rw [hagain (x ++ y) (List.take_append_of_le_length hle)]
      dsimp only
      split at h
      · exact h
      · rename_i len hlen
        split_ifs at h with hshort hend
        have hagree : (x ++ y).take x.length = x.take x.length :=
          List.take_append_of_le_length le_rfl
        rw [if_neg (by rw [List.length_append]; omega), take_drop_of_take hagree (by omega),
          if_pos hend]
        exact h

theorem bulks_error_append {x : Bytes} {count pos : ℕ} {e : ProtocolError}
    (h : bulks x count pos = .error e) (y : Bytes) : bulks (x ++ y) count pos = .error e := by
  induction count generalizing pos e with
  | zero => cases h
  | succ count ih =>
    rw [bulks] at h ⊢
    split at h
    · rename_i hbulk
      rw [bulk_error_append hbulk y]
      exact h
    · cases h
    · rename_i bytes next hbulk
      obtain ⟨-, hle, hagain⟩ := bulk_eq_some hbulk
      rw [hagain (x ++ y) (List.take_append_of_le_length hle)]
      dsimp only
      split at h
      · rename_i hbulks
        rw [ih hbulks]
        exact h
      · cases h
      · cases h

section

variable {upper : Char → List Char} {x : Bytes} {e : ProtocolError}

/-- **An array that is wrong is wrong whatever follows.** -/
theorem parseArray_error_append (h : parseArray upper x = .error e) (y : Bytes) :
    parseArray upper (x ++ y) = .error e := by
  unfold parseArray at h
  split at h
  · cases h
  · rename_i head pos hline
    obtain ⟨-, hle, hagain⟩ := line_eq_some hline
    rw [parseArray, hagain (x ++ y) (List.take_append_of_le_length hle)]
    dsimp only
    split at h
    · exact h
    · rename_i count hcount
      split_ifs at h ⊢ with hempty
      split at h
      · exact h
      · rename_i count' hbounded
        split at h
        · rename_i hbulks
          rw [bulks_error_append hbulks y]
          exact h
        · cases h
        · cases h

/-- What is reported for a line whose end has not come. -/
def tooBig : ProtocolError := .new "too big inline request"

theorem bulk_ne_tooBig (x : Bytes) (start : ℕ) : bulk x start ≠ .error tooBig := by
  unfold bulk
  split
  · exact (nomatch ·)
  · split_ifs
    · exact fun h => absurd (Except.error.inj h) (by decide +kernel)
    split
    · exact (nomatch ·)
    · split
      · exact fun h => absurd (Except.error.inj h) (by decide +kernel)
      · split_ifs
        · exact (nomatch ·)
        · exact fun h => absurd (Except.error.inj h) (by decide +kernel)
        · exact (nomatch ·)

theorem bulks_ne_tooBig (x : Bytes) (count pos : ℕ) : bulks x count pos ≠ .error tooBig := by
  induction count generalizing pos with
  | zero => exact (nomatch ·)
  | succ count ih =>
    rw [bulks]
    split
    · rename_i hbulk
      exact fun h => bulk_ne_tooBig x pos (hbulk.trans (congrArg _ (Except.error.inj h)))
    · exact (nomatch ·)
    · split
      · rename_i hbulks
        exact fun h => ih _ (hbulks.trans h)
      · exact (nomatch ·)
      · exact (nomatch ·)

/-- An array is wrong in other ways. -/
theorem parseArray_ne_tooBig : parseArray upper x ≠ .error tooBig := by
  unfold parseArray
  split
  · exact (nomatch ·)
  · split
    · exact fun h => absurd (Except.error.inj h) (by decide +kernel)
    · split_ifs
      · exact (nomatch ·)
      split
      · exact fun h => absurd (Except.error.inj h) (by decide +kernel)
      · split
        · rename_i hbulks
          exact fun h => bulks_ne_tooBig _ _ _ (hbulks.trans (congrArg _ (Except.error.inj h)))
        · exact (nomatch ·)
        · exact (nomatch ·)

theorem parseInline_eq_error_iff :
    parseInline upper x = .error e ↔ 0x0A ∉ x ∧ maxInline < x.length ∧ e = tooBig := by
  cases hpos : x.findIdx? (· = 0x0A) with
  | none =>
    have hmem : 0x0A ∉ x := fun h => by simpa using List.findIdx?_eq_none_iff.mp hpos _ h
    rw [parseInline, hpos]
    dsimp only
    split_ifs with hlen
    · exact ⟨fun h => ⟨hmem, hlen, (Except.error.inj h).symm⟩, fun h => by rw [h.2.2, tooBig]⟩
    · exact ⟨(nomatch ·), fun h => absurd h.2.1 hlen⟩
  | some pos =>
    obtain ⟨request, hparse⟩ := parseInline_of_findIdx? upper hpos
    rw [hparse x rfl]
    obtain ⟨hlt, heq, -⟩ := List.findIdx?_eq_some_iff_getElem.mp hpos
    have hmem : 0x0A ∈ x := by
      rw [← of_decide_eq_true heq]
      exact List.getElem_mem hlt
    exact ⟨(nomatch ·), fun h => absurd hmem h.1⟩

variable (upper) in
/-- A line takes everything up to the first line end. -/
theorem parseInline_append {y : Bytes} (hx : 0x0A ∉ x) (hy : 0x0A ∈ y) :
    ∃ request n, parseInline upper (x ++ y) = .ok (some (request, n)) ∧ x.length < n := by
  have hnone : x.findIdx? (· = 0x0A) = none :=
    List.findIdx?_eq_none_iff.mpr fun b hb => decide_eq_false fun h => hx (h ▸ hb)
  obtain ⟨pos, hpos⟩ : ∃ pos, y.findIdx? (· = 0x0A) = some pos := by
    refine Option.isSome_iff_exists.mp ?_
    rw [List.findIdx?_isSome, List.any_eq_true]
    exact ⟨0x0A, hy, rfl⟩
  have hfind : (x ++ y).findIdx? (· = 0x0A) = some (pos + x.length) := by
    rw [List.findIdx?_append, hnone, Option.none_or, hpos]
    rfl
  obtain ⟨request, hparse⟩ := parseInline_of_findIdx? upper hfind
  exact ⟨request, _, hparse _ rfl, by omega⟩

theorem not_mem_take_of_parseInline {request : Request} {n : ℕ}
    (h : parseInline upper x = .ok (some (request, n))) {m : ℕ} (hm : m < n) : 0x0A ∉ x.take m := by
  obtain ⟨pos, hpos, rfl, -⟩ := exists_of_parseInline h
  obtain ⟨_, -, hbefore⟩ := List.findIdx?_eq_some_iff_getElem.mp hpos
  intro hmem
  obtain ⟨i, hi, heq⟩ := List.mem_iff_getElem.mp hmem
  rw [List.length_take] at hi
  rw [List.getElem_take] at heq
  exact hbefore i (by omega) (decide_eq_true heq)

/-- The two ways in which a request can be wrong. -/
theorem parse_error_cases (h : parse upper x = .error e) :
    (x.head? = some 0x2A ∧ parseArray upper x = .error e)
      ∨ ((∃ first, x.head? = some first ∧ first ≠ 0x2A) ∧ 0x0A ∉ x ∧ maxInline < x.length
        ∧ e = tooBig) := by
  cases hfirst : x.head? with
  | none =>
    rw [parse, hfirst] at h
    cases h
  | some first =>
    by_cases harray : first = 0x2A
    · subst harray
      rw [parse_array hfirst] at h
      exact .inl ⟨rfl, h⟩
    · rw [parse_inline hfirst harray] at h
      exact .inr ⟨⟨first, rfl, harray⟩, parseInline_eq_error_iff.mp h⟩

/-- The error for a line is reported for a line, too long and without its end. -/
theorem parse_eq_tooBig_iff :
    parse upper x = .error tooBig
      ↔ x.head? ≠ some 0x2A ∧ 0x0A ∉ x ∧ maxInline < x.length := by
  constructor
  · intro h
    rcases parse_error_cases h with ⟨-, harray⟩ | ⟨⟨first, hfirst, hne⟩, hmem, hlen, -⟩
    · exact absurd harray parseArray_ne_tooBig
    · exact ⟨fun hstar => hne (Option.some.inj (hfirst.symm.trans hstar)), hmem, hlen⟩
  · rintro ⟨hstar, hmem, hlen⟩
    cases x with
    | nil => exact absurd hlen (Nat.not_lt_zero _)
    | cons first x =>
      rw [parse_inline rfl fun heq => hstar (congrArg some heq), parseInline_eq_error_iff]
      exact ⟨hmem, hlen, rfl⟩

theorem head?_append_of_some {first : UInt8} (h : x.head? = some first) (y : Bytes) :
    (x ++ y).head? = some first := by
  rw [List.head?_append, h, Option.some_or]

theorem parse_error_append (h : parse upper x = .error e) {y : Bytes}
    (hy : x.head? = some 0x2A ∨ 0x0A ∉ y) : parse upper (x ++ y) = .error e := by
  rcases parse_error_cases h with ⟨hstar, harray⟩ | ⟨⟨first, hfirst, hne⟩, hmem, hlen, rfl⟩
  · rw [parse_array (head?_append_of_some hstar y), parseArray_error_append harray]
  · have hmem' : 0x0A ∉ y :=
      hy.resolve_left fun hstar => hne (Option.some.inj (hfirst.symm.trans hstar))
    rw [parse_inline (head?_append_of_some hfirst y) hne, parseInline_eq_error_iff,
      List.length_append]
    exact ⟨List.not_mem_append hmem hmem', by omega, rfl⟩

/-- The end of a line that was too long makes it a request after all. -/
theorem parse_append_of_error (h : parse upper x = .error e) {y : Bytes}
    (hstar : x.head? ≠ some 0x2A) (hy : 0x0A ∈ y) :
    e = tooBig ∧ ∃ request n, parse upper (x ++ y) = .ok (some (request, n))
      ∧ maxInline + 1 < n := by
  rcases parse_error_cases h with ⟨hstar', -⟩ | ⟨⟨first, hfirst, hne⟩, hmem, hlen, rfl⟩
  · exact absurd hstar' hstar
  · obtain ⟨request, n, hparse, hlt⟩ := parseInline_append upper hmem hy
    refine ⟨rfl, request, n, ?_, by omega⟩
    rw [parse_inline (head?_append_of_some hfirst y) hne, hparse]

/-- **When an error stays one**: always for an array, for a line as long as it does not end. -/
theorem parse_error_append_iff (h : parse upper x = .error e) (y : Bytes) :
    (∃ e', parse upper (x ++ y) = .error e') ↔ x.head? = some 0x2A ∨ 0x0A ∉ y := by
  refine ⟨fun ⟨e', herror⟩ => ?_, fun hy => ⟨e, parse_error_append h hy⟩⟩
  by_contra! hends
  obtain ⟨-, request, n, hparse, -⟩ := parse_append_of_error h hends.1 hends.2
  rw [hparse] at herror
  cases herror

end

end Lsmkv.Server
