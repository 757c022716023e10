import Lsmkv.Lib.Codec
import Lsmkv.Server.Connection

/-!
# What a client reads

`decodeReplies` reads a stream of replies by the grammar of RESP2.  Bulk strings are delimited by
their length, status and error lines by the line end: a line holds neither of the two bytes of one.
`WellFramed` says that the lines of a reply are of that kind, and `decodeReplies_eq_iff` that these
are the replies that are read back.

Most replies to commands are well framed whatever the client sent.  Two kinds of error hold a text
that is not the server's own: the one for an unknown command holds the name of the command, the one
for a store that failed holds what the store reports.  `Backend.recording` keeps the errors that the
calls of the store return, and `decodeReplies_runBatch_iff` says that a batch is answered with one
frame for each command exactly if neither these nor the names of unknown commands hold a line end:
nothing else that a client sends can end a frame.  The name of a command is chosen by the client and
can be any bytes, so a client can forge replies (`not_decodeReplies_runBatch`).
-/

namespace Lsmkv.Server

/-! ### The grammar of replies -/

/-- Neither byte of a line end. -/
def OneLine (bytes : Bytes) : Prop := ∀ b ∈ bytes, b ≠ 0x0D ∧ b ≠ 0x0A

instance (bytes : Bytes) : Decidable (OneLine bytes) :=
  inferInstanceAs (Decidable (∀ b ∈ bytes, b ≠ 0x0D ∧ b ≠ 0x0A))

/-- Takes a line and its end. -/
def takeLine : Bytes → Option (Bytes × Bytes)
  | [] => none
  | b :: rest =>
    if b = 0x0D then if rest.head? = some 0x0A then some ([], rest.tail) else none
    else if b = 0x0A then none
    else (takeLine rest).map fun (line, rest) => (b :: line, rest)

/-- The text of a line. -/
def decodeText (line : Bytes) : Option String := String.fromUTF8? ⟨line.toArray⟩

/-- The integer of a line: digits, perhaps with a sign in front. -/
def decodeInt : Bytes → Option ℤ
  | [] => none
  | b :: digits =>
    if b = 0x2D then (natural digits).map fun n : ℕ => -(n : ℤ)
    else if b = 0x2B then (natural digits).map fun n : ℕ => (n : ℤ)
    else (natural (b :: digits)).map fun n : ℕ => (n : ℤ)

/-- The length that stands for the absence of a value. -/
def minusOne : Bytes := [0x2D, 0x31]

/-- Takes one reply.  Every level of an array takes a byte, so the length of the input is fuel
enough. -/
def takeReply : ℕ → Bytes → Option (Reply × Bytes)
  | 0, _ => none
  | _ + 1, [] => none
  | fuel + 1, kind :: input => do
    let (line, input) ← takeLine input
    if kind = 0x2B then (decodeText line).map fun text => (.simple text, input)
    else if kind = 0x2D then (decodeText line).map fun text => (.error text, input)
    else if kind = 0x3A then (decodeInt line).map fun value => (.integer value, input)
    else if kind = 0x24 then
      if line = minusOne then some (.nil, input)
      else
        let len ← natural line
        let (bytes, input) ← take input len
        let (tail, input) ← take input crlf.length
        if tail = crlf then some (.bulk bytes, input) else none
    else if kind = 0x2A then
      if line = minusOne then some (.nil, input)
      else
        let count ← natural line
        let (items, input) ← readTimes (takeReply fuel) count input
        some (.array items, input)
    else none

/-- Takes replies until the input ends. -/
def takeReplies : ℕ → Bytes → Option (List Reply)
  | _, [] => some []
  | 0, _ :: _ => none
  | fuel + 1, first :: input => do
    let (reply, rest) ← takeReply (first :: input).length (first :: input)
    let replies ← takeReplies fuel rest
    some (reply :: replies)

/-- The replies that a stream consists of. -/
def decodeReplies (input : Bytes) : Option (List Reply) := takeReplies input.length input

mutual

/-- The lines of a reply hold no line end. -/
def Reply.WellFramed : Reply → Prop
  | .simple text => OneLine (utf8 text)
  | .error text => OneLine (utf8 text)
  | .integer _ => True
  | .bulk _ => True
  | .nil => True
  | .array items => Reply.AllWellFramed items

/-- The lines of some replies hold no line end. -/
def Reply.AllWellFramed : List Reply → Prop
  | [] => True
  | item :: items => item.WellFramed ∧ Reply.AllWellFramed items

end

theorem allWellFramed_iff {items : List Reply} :
    Reply.AllWellFramed items ↔ ∀ item ∈ items, item.WellFramed := by
  induction items with
  | nil => simp [Reply.AllWellFramed]
  | cons item items ih => rw [Reply.AllWellFramed, ih, List.forall_mem_cons]

/-! ### Lines and texts -/

theorem takeLine_append {line : Bytes} (h : OneLine line) (rest : Bytes) :
    takeLine (line ++ crlf ++ rest) = some (line, rest) := by
  induction line with
  | nil => rfl
  | cons b line ih =>
    obtain ⟨hb, hline⟩ := List.forall_mem_cons.mp h
    rw [List.cons_append, List.cons_append, takeLine, if_neg hb.1, if_neg hb.2, ih hline,
      Option.map_some]

theorem oneLine_of_takeLine {input line rest : Bytes} (h : takeLine input = some (line, rest)) :
    OneLine line := by
  induction input generalizing line with
  | nil => cases h
  | cons b input ih =>
    rw [takeLine] at h
    split_ifs at h with hcr hend hlf
    · obtain ⟨rfl, -⟩ := Prod.mk.inj (Option.some.inj h)
      exact List.forall_mem_nil _
    · obtain ⟨⟨line', rest'⟩, hline, heq⟩ := Option.map_eq_some_iff.mp h
      obtain ⟨rfl, rfl⟩ := Prod.mk.inj heq
      exact List.forall_mem_cons.mpr ⟨⟨hcr, hlf⟩, ih hline⟩

theorem decodeText_utf8 (text : String) : decodeText (utf8 text) = some text := by
  have hbytes : (⟨(utf8 text).toArray⟩ : ByteArray) = text.toByteArray := rfl
  rw [decodeText, hbytes, String.fromUTF8?, dif_pos text.isValidUTF8]
  rfl

theorem utf8_of_decodeText {line : Bytes} {text : String} (h : decodeText line = some text) :
    utf8 text = line := by
  unfold decodeText String.fromUTF8? at h
  split_ifs at h
  obtain rfl := Option.some.inj h
  rfl

theorem utf8_append (a b : String) : utf8 (a ++ b) = utf8 a ++ utf8 b := by
  simp [utf8]

theorem oneLine_append {x y : Bytes} : OneLine (x ++ y) ↔ OneLine x ∧ OneLine y :=
  List.forall_mem_append

theorem oneLine_decimal (n : ℕ) : OneLine (decimal n) := by
  intro b hb
  have hle := ((decimal_digits n).2 b hb).1
  constructor
  · rintro rfl
    exact absurd hle (by decide)
  · rintro rfl
    exact absurd hle (by decide)

theorem head_decimal {n : ℕ} {b : UInt8} {digits : Bytes} (h : decimal n = b :: digits) :
    b ≠ 0x2D ∧ b ≠ 0x2B := by
  have hle := ((decimal_digits n).2 b (by rw [h]; exact List.mem_cons_self)).1
  constructor
  · rintro rfl
    exact absurd hle (by decide)
  · rintro rfl
    exact absurd hle (by decide)

theorem decimal_ne_minusOne (n : ℕ) : decimal n ≠ minusOne := fun h => (head_decimal h).1 rfl

theorem oneLine_decimalInt (z : ℤ) : OneLine (decimalInt z) := by
  unfold decimalInt
  split_ifs
  · exact List.forall_mem_cons.mpr ⟨by decide, oneLine_decimal _⟩
  · exact oneLine_decimal _

theorem decodeInt_decimalInt (z : ℤ) : decodeInt (decimalInt z) = some z := by
  unfold decimalInt
  split_ifs with hneg
  · rw [decodeInt, if_pos rfl, natural_decimal, Option.map_some]
    congr 1
    omega
  · have hvalue := natural_decimal z.natAbs
    cases hdecimal : decimal z.natAbs with
    | nil => exact absurd hdecimal (decimal_digits _).1
    | cons b digits =>
      rw [hdecimal] at hvalue
      obtain ⟨hminus, hplus⟩ := head_decimal hdecimal
      rw [decodeInt, if_neg hminus, if_neg hplus, hvalue, Option.map_some]
      congr 1
      omega

/-! ### Replies that are read back -/

theorem encodeAll_eq_flatMap (replies : List Reply) :
    Reply.encodeAll replies = replies.flatMap Reply.encode := by
  induction replies with
  | nil => rfl
  | cons reply replies ih => rw [Reply.encodeAll, ih, List.flatMap_cons]

theorem length_encode_le_of_mem {reply : Reply} {replies : List Reply} (h : reply ∈ replies) :
    reply.encode.length ≤ (Reply.encodeAll replies).length := by
  obtain ⟨before, after, rfl⟩ := List.append_of_mem h
  rw [encodeAll_append, Reply.encodeAll, List.length_append, List.length_append]
  omega

theorem length_encode_pos (reply : Reply) : 0 < reply.encode.length := by
  cases reply <;> simp [Reply.encode]

/-- A reply whose lines are lines is read back, whatever follows it. -/
theorem takeReply_encode {fuel : ℕ} {reply : Reply} (h : reply.WellFramed)
    (hfuel : reply.encode.length ≤ fuel) (rest : Bytes) :
    takeReply fuel (reply.encode ++ rest) = some (reply, rest) := by
  induction fuel generalizing reply rest with
  | zero =>
    have := length_encode_pos reply
    omega
  | succ fuel ih =>
    cases reply with
    | simple text =>
      rw [Reply.encode, List.cons_append, List.cons_append, takeReply, takeLine_append h,
        Option.bind_eq_bind, Option.bind_some]
      dsimp only
      rw [if_pos rfl, decodeText_utf8, Option.map_some]
    | error text =>
      rw [Reply.encode, List.cons_append, List.cons_append, takeReply, takeLine_append h,
        Option.bind_eq_bind, Option.bind_some]
      dsimp only
      rw [if_neg (by decide), if_pos rfl, decodeText_utf8, Option.map_some]
    | integer value =>
      rw [Reply.encode, List.cons_append, List.cons_append, takeReply,
        takeLine_append (oneLine_decimalInt value), Option.bind_eq_bind, Option.bind_some]
      dsimp only
      rw [if_neg (by decide), if_neg (by decide), if_pos rfl, decodeInt_decimalInt, Option.map_some]
    | bulk bytes =>
      have hinput : (Reply.bulk bytes).encode ++ rest
          = 0x24 :: (decimal bytes.length ++ crlf ++ (bytes ++ (crlf ++ rest))) := by
        simp [Reply.encode]
      rw [hinput, takeReply, takeLine_append (oneLine_decimal _), Option.bind_eq_bind,
        Option.bind_some]
      dsimp only
      rw [if_neg (by decide), if_neg (by decide), if_neg (by decide), if_pos rfl,
        if_neg (decimal_ne_minusOne _), natural_decimal, Option.bind_eq_bind, Option.bind_some,
        take_append rfl, Option.bind_some]
      dsimp only
      rw [take_append rfl, Option.bind_some]
      dsimp only
      rw [if_pos rfl]
    | nil => rfl
    | array items =>
      have hinput : (Reply.array items).encode ++ rest
          = 0x2A :: (decimal items.length ++ crlf ++ (items.flatMap Reply.encode ++ rest)) := by
        simp [Reply.encode, encodeAll_eq_flatMap]
      have hlen : (Reply.encodeAll items).length ≤ fuel := by
        simp only [Reply.encode, List.cons_append, List.length_cons, List.length_append] at hfuel
        omega
      -- an item is shorter than the array it stands in
      have hitems :
          ∀ item ∈ items, ∀ rest, takeReply fuel (item.encode ++ rest) = some (item, rest) :=
        fun item hmem => ih (allWellFramed_iff.mp h item hmem)
          ((length_encode_le_of_mem hmem).trans hlen)
      rw [hinput, takeReply, takeLine_append (oneLine_decimal _), Option.bind_eq_bind,
        Option.bind_some]
      dsimp only
      rw [if_neg (by decide), if_neg (by decide), if_neg (by decide),
        if_neg (by decide), if_pos rfl,
        if_neg (decimal_ne_minusOne _), natural_decimal, Option.bind_eq_bind, Option.bind_some,
        readTimes_append hitems, Option.bind_eq_bind, Option.bind_some]

/-- A reply that is read has lines that are lines. -/
theorem wellFramed_of_takeReply {fuel : ℕ} {input rest : Bytes} {reply : Reply}
    (h : takeReply fuel input = some (reply, rest)) : reply.WellFramed := by
  induction fuel generalizing input reply rest with
  | zero => cases h
  | succ fuel ih =>
    cases input with
    | nil => cases h
    | cons kind input =>
      rw [takeReply, Option.bind_eq_bind, Option.bind_eq_some_iff] at h
      obtain ⟨⟨line, input⟩, hline, h⟩ := h
      have hone := oneLine_of_takeLine hline
      dsimp only at h
      split_ifs at h with hsimple herror hinteger hbulk hnil harray hnull
      · obtain ⟨text, htext, heq⟩ := Option.map_eq_some_iff.mp h
        obtain ⟨rfl, -⟩ := Prod.mk.inj heq
        rwa [Reply.WellFramed, utf8_of_decodeText htext]
      · obtain ⟨text, htext, heq⟩ := Option.map_eq_some_iff.mp h
        obtain ⟨rfl, -⟩ := Prod.mk.inj heq
        rwa [Reply.WellFramed, utf8_of_decodeText htext]
      · obtain ⟨value, -, heq⟩ := Option.map_eq_some_iff.mp h
        obtain ⟨rfl, -⟩ := Prod.mk.inj heq
        trivial
      · obtain ⟨rfl, -⟩ := Prod.mk.inj (Option.some.inj h)
        trivial
      · simp only [Option.bind_eq_bind, Option.bind_eq_some_iff, Prod.exists] at h
        obtain ⟨len, -, bytes, c₁, -, tail, c₂, -, h⟩ := h
        split_ifs at h
        obtain ⟨rfl, -⟩ := Prod.mk.inj (Option.some.inj h)
        trivial
      · obtain ⟨rfl, -⟩ := Prod.mk.inj (Option.some.inj h)
        trivial
      · simp only [Option.bind_eq_bind, Option.bind_eq_some_iff, Prod.exists, Option.some.injEq,
          Prod.mk.injEq] at h
        obtain ⟨count, -, items, c₁, hitems, rfl, -⟩ := h
        exact allWellFramed_iff.mpr (forall_of_readTimes (fun _ _ _ => ih) hitems)

theorem takeReplies_encodeAll {fuel : ℕ} {replies : List Reply}
    (h : ∀ reply ∈ replies, reply.WellFramed)
    (hfuel : (Reply.encodeAll replies).length ≤ fuel) :
    takeReplies fuel (Reply.encodeAll replies) = some replies := by
  induction replies generalizing fuel with
  | nil => cases fuel <;> rfl
  | cons reply replies ih =>
    obtain ⟨hreply, hreplies⟩ := List.forall_mem_cons.mp h
    have hpos := length_encode_pos reply
    rw [Reply.encodeAll, List.length_append] at hfuel
    obtain ⟨fuel, rfl⟩ : ∃ n, fuel = n + 1 := ⟨fuel - 1, by omega⟩
    have htake := takeReply_encode hreply
      (show reply.encode.length ≤ (reply.encode ++ Reply.encodeAll replies).length by simp)
      (Reply.encodeAll replies)
    rw [Reply.encodeAll]
    cases hinput : reply.encode ++ Reply.encodeAll replies with
    | nil =>
      rw [(List.append_eq_nil_iff.mp hinput).1] at hpos
      cases hpos
    | cons first input =>
      rw [hinput] at htake
      rw [takeReplies, htake, Option.bind_eq_bind, Option.bind_some]
      dsimp only
      rw [ih hreplies (by omega), Option.bind_eq_bind, Option.bind_some]

theorem wellFramed_of_takeReplies {fuel : ℕ} {input : Bytes} {replies : List Reply}
    (h : takeReplies fuel input = some replies) : ∀ reply ∈ replies, reply.WellFramed := by
  induction fuel generalizing input replies with
  | zero =>
    cases input with
    | nil =>
      obtain rfl := Option.some.inj h
      simp
    | cons first input => cases h
  | succ fuel ih =>
    cases input with
    | nil =>
      obtain rfl := Option.some.inj h
      simp
    | cons first input =>
      simp only [takeReplies, Option.bind_eq_bind, Option.bind_eq_some_iff, Prod.exists,
        Option.some.injEq] at h
      obtain ⟨reply, rest, hreply, replies, hreplies, rfl⟩ := h
      exact List.forall_mem_cons.mpr ⟨wellFramed_of_takeReply hreply, ih hreplies⟩

/-- **The replies that are read back** are those whose lines hold no line end. -/
theorem decodeReplies_eq_iff {replies : List Reply} :
    decodeReplies (Reply.encodeAll replies) = some replies ↔ ∀ reply ∈ replies, reply.WellFramed :=
  ⟨wellFramed_of_takeReplies, fun h => takeReplies_encodeAll h le_rfl⟩

/-! ### Replies to commands -/

/-- The names `execute` knows. -/
def commandNames : List String :=
  ["PING", "GET", "SET", "DEL", "COMMAND", "CONFIG", "HELLO", "INFO", "SELECT", "QUIT"]

/-- The pieces of text that the server's own status and error lines are made of. -/
def ownTexts : List String :=
  ["OK", "PONG", "ping", "get", "set", "del", "select", "ERR wrong number of arguments for '",
    "' command", "ERR unknown command '", "', with args beginning with:", "ERR the store failed: ",
    "ERR syntax error", "ERR only CONFIG GET is supported", "ERR DB index is out of range",
    "NOPROTO unsupported protocol version, this server speaks RESP2"]

/-- None of them holds a line end. -/
theorem oneLine_of_mem_ownTexts : ∀ text ∈ ownTexts, OneLine (utf8 text) := by
  -- over the bytes of each text, and not over all bytes as the instance of `OneLine` has it
  have hall : ownTexts.all (fun text => (utf8 text).all fun b => b ≠ 0x0D ∧ b ≠ 0x0A) = true := by
    decide +kernel
  intro text htext b hb
  have hbytes := List.all_eq_true.mp hall text htext
  exact of_decide_eq_true (List.all_eq_true.mp hbytes b hb)

theorem wellFramed_failed_iff {err : String} : (failed err).WellFramed ↔ OneLine (utf8 err) := by
  have hlead := oneLine_of_mem_ownTexts "ERR the store failed: " (by simp [ownTexts])
  rw [failed, Reply.WellFramed, utf8_append, oneLine_append]
  exact and_iff_right hlead

theorem wellFramed_unknown_iff {command : Command} :
    command.unknown.WellFramed ↔ OneLine (utf8 command.name) := by
  have hlead := oneLine_of_mem_ownTexts "ERR unknown command '" (by simp [ownTexts])
  have htail := oneLine_of_mem_ownTexts "', with args beginning with:" (by simp [ownTexts])
  rw [Command.unknown, Reply.WellFramed, utf8_append, utf8_append, oneLine_append, oneLine_append]
  exact ⟨fun h => h.1.2, fun h => ⟨⟨hlead, h⟩, htail⟩⟩

theorem wellFramed_arity {name : String} (h : OneLine (utf8 name)) : (arity name).WellFramed := by
  have hlead := oneLine_of_mem_ownTexts "ERR wrong number of arguments for '" (by simp [ownTexts])
  have htail := oneLine_of_mem_ownTexts "' command" (by simp [ownTexts])
  rw [arity, Reply.WellFramed, utf8_append, utf8_append, oneLine_append, oneLine_append]
  exact ⟨⟨hlead, h⟩, htail⟩

theorem wellFramed_ok : ok.WellFramed := by
  have htext := oneLine_of_mem_ownTexts "OK" (by simp [ownTexts])
  exact htext

section

variable {σ α : Type}

/-- A call of the store that keeps the error it returned. -/
def recordError (call : StateM σ (Except String α)) :
    StateM (σ × List String) (Except String α) := fun (store, errors) =>
  let (result, store) := call store
  (result, store, match result with
    | .ok _ => errors
    | .error err => errors ++ [err])

/-- The store with a list of the errors that its calls have returned, oldest first. -/
def Backend.recording (engine : Backend σ) : Backend (σ × List String) where
  get key := recordError (engine.get key)
  set key value := recordError (engine.set key value)
  delete key := recordError (engine.delete key)
  levelSizes := fun (store, _) => engine.levelSizes store
  tableCount := fun (store, _) => engine.tableCount store
  lastSequence := fun (store, _) => engine.lastSequence store
  blockReads := fun (store, _) => engine.blockReads store
  bytesWritten := fun (store, _) => engine.bytesWritten store

/-- `recorded` is `run` on a store that keeps the errors of its calls, and the reply is well framed
exactly if the ones it kept hold no line end. -/
def Framed (run : StateM σ Reply) (recorded : StateM (σ × List String) Reply) : Prop :=
  ∀ store errors, ∃ more, recorded (store, errors) = ((run store).1, (run store).2, errors ++ more)
    ∧ ((run store).1.WellFramed ↔ ∀ err ∈ more, OneLine (utf8 err))

/-- A reply in which no text of the store stands. -/
theorem framed_pure {reply : Reply} (h : reply.WellFramed) :
    Framed (pure reply : StateM σ Reply) (pure reply) := by
  intro store errors
  refine ⟨[], ?_, fun _ => List.forall_mem_nil _, fun _ => h⟩
  rw [List.append_nil]
  rfl

/-- A command that calls the store and, if the call fails, replies with the error alone. -/
theorem framed_bind {call : StateM σ (Except String α)} {f : Except String α → StateM σ Reply}
    {f' : Except String α → StateM (σ × List String) Reply}
    (hok : ∀ a, Framed (f (.ok a)) (f' (.ok a))) (herr : ∀ err, f (.error err) = pure (failed err))
    (herr' : ∀ err, f' (.error err) = pure (failed err)) :
    Framed (call >>= f) (recordError call >>= f') := by
  intro store errors
  have hrun : (call >>= f) store = f (call store).1 (call store).2 := rfl
  have hrecorded : (recordError call >>= f') (store, errors)
      = f' (recordError call (store, errors)).1 (recordError call (store, errors)).2 := rfl
  rw [hrun, hrecorded]
  rcases hcall : call store with ⟨result, store'⟩
  cases result with
  | ok a =>
    have hkept : recordError call (store, errors) = (.ok a, store', errors) := by
      simp only [recordError, hcall]
    rw [hkept]
    exact hok a store' errors
  | error err =>
    have hkept : recordError call (store, errors) = (.error err, store', errors ++ [err]) := by
      simp only [recordError, hcall]
    rw [hkept]
    dsimp only
    rw [herr, herr']
    refine ⟨[err], rfl, ?_⟩
    rw [List.forall_mem_singleton]
    exact wellFramed_failed_iff

end

section

variable {σ : Type} (engine : Backend σ) (command : Command)

theorem wellFramed_ping : command.ping.WellFramed := by
  unfold Command.ping
  split
  · have htext := oneLine_of_mem_ownTexts "PONG" (by simp [ownTexts])
    exact htext
  · trivial
  · exact wellFramed_arity (oneLine_of_mem_ownTexts _ (by simp [ownTexts]))

theorem wellFramed_config : command.config.WellFramed := by
  unfold Command.config
  split
  · trivial
  · have htext := oneLine_of_mem_ownTexts "ERR only CONFIG GET is supported" (by simp [ownTexts])
    exact htext

theorem wellFramed_hello : command.hello.WellFramed := by
  have htext := oneLine_of_mem_ownTexts
    "NOPROTO unsupported protocol version, this server speaks RESP2" (by simp [ownTexts])
  have hgreeting : Command.hello.greeting.WellFramed := by
    rw [Command.hello.greeting, Reply.WellFramed, allWellFramed_iff]
    simp [Reply.WellFramed, Reply.AllWellFramed]
  unfold Command.hello
  split
  · split_ifs
    · exact htext
    · exact hgreeting
  · exact hgreeting

theorem wellFramed_select : command.select.WellFramed := by
  unfold Command.select
  split
  · exact wellFramed_ok
  · have htext := oneLine_of_mem_ownTexts "ERR DB index is out of range" (by simp [ownTexts])
    exact htext
  · exact wellFramed_arity (oneLine_of_mem_ownTexts _ (by simp [ownTexts]))

theorem framed_get : Framed (command.get engine) (command.get engine.recording) := by
  unfold Command.get
  split
  · refine framed_bind (fun found => ?_) (fun _ => rfl) fun _ => rfl
    cases found with
    | none => exact framed_pure trivial
    | some value => exact framed_pure trivial
  · exact framed_pure (wellFramed_arity (oneLine_of_mem_ownTexts _ (by simp [ownTexts])))

theorem framed_set : Framed (command.set engine) (command.set engine.recording) := by
  unfold Command.set
  split_ifs with hoptions
  · have htext := oneLine_of_mem_ownTexts "ERR syntax error" (by simp [ownTexts])
    exact framed_pure htext
  · split
    · exact framed_bind (fun _ => framed_pure wellFramed_ok) (fun _ => rfl) fun _ => rfl
    · exact framed_pure (wellFramed_arity (oneLine_of_mem_ownTexts _ (by simp [ownTexts])))

theorem framed_delLoop (removed : ℕ) (keys : List Bytes) :
    Framed (delLoop engine removed keys) (delLoop engine.recording removed keys) := by
  induction keys generalizing removed with
  | nil => exact framed_pure trivial
  | cons key keys ih =>
    refine framed_bind (fun found => ?_) (fun _ => rfl) fun _ => rfl
    cases found with
    | none => exact ih removed
    | some value => exact framed_bind (fun _ => ih (removed + 1)) (fun _ => rfl) fun _ => rfl

theorem framed_del : Framed (command.del engine) (command.del engine.recording) := by
  unfold Command.del
  split_ifs with hargs
  · exact framed_pure (wellFramed_arity (oneLine_of_mem_ownTexts _ (by simp [ownTexts])))
  · exact framed_delLoop engine 0 _

/-- What a command is answered with: a reply that only an error of the store can spoil, or the error
for a name the server does not know. -/
theorem execute_cases :
    (command.name ∈ commandNames ∧ Framed (execute engine command)
        (execute engine.recording command))
      ∨ command.name ∉ commandNames ∧ execute engine command = pure command.unknown
        ∧ execute engine.recording command = pure command.unknown := by
  unfold execute
  split
  case h_11 =>
    refine Or.inr ⟨?_, rfl, rfl⟩
    simp only [commandNames, List.mem_cons, List.not_mem_nil, or_false, not_or]
    refine ⟨?_, ?_, ?_, ?_, ?_, ?_, ?_, ?_, ?_, ?_⟩ <;> assumption
  all_goals
    rename_i hname
    refine Or.inl ⟨by rw [hname]; decide, ?_⟩
  case h_1 => exact framed_pure (wellFramed_ping command)
  case h_2 => exact framed_get engine command
  case h_3 => exact framed_set engine command
  case h_4 => exact framed_del engine command
  case h_5 => exact framed_pure trivial
  case h_6 => exact framed_pure (wellFramed_config command)
  case h_7 => exact framed_pure (wellFramed_hello command)
  case h_8 =>
    exact fun store errors => ⟨[], by rw [List.append_nil]; rfl, by simp, fun _ => trivial⟩
  case h_9 => exact framed_pure (wellFramed_select command)
  case h_10 => exact framed_pure wellFramed_ok

/-- **One command** is answered alike by a store that keeps its errors, with a well-framed reply
exactly if neither the name of an unknown command nor an error that the store returned holds a line
end. -/
theorem wellFramed_execute_iff (store : σ) (errors : List String) : ∃ more,
    execute engine.recording command (store, errors)
        = ((execute engine command store).1, (execute engine command store).2, errors ++ more)
      ∧ ((execute engine command store).1.WellFramed
        ↔ (command.name ∉ commandNames → OneLine (utf8 command.name))
          ∧ ∀ err ∈ more, OneLine (utf8 err)) := by
  rcases execute_cases engine command with ⟨hknown, hframed⟩ | ⟨hunknown, hreply, hrecorded⟩
  · obtain ⟨more, hmore, hiff⟩ := hframed store errors
    exact ⟨more, hmore, hiff.trans (and_iff_right fun hnot => absurd hknown hnot).symm⟩
  · refine ⟨[], ?_, ?_⟩
    · rw [hreply, hrecorded, List.append_nil]
      rfl
    · rw [hreply]
      refine wellFramed_unknown_iff.trans ?_
      simp [hunknown]

variable (commands : List Command) (store : σ)

/-- **A batch** is answered alike by a store that keeps its errors. -/
theorem wellFramed_runBatch_iff (errors : List String) : ∃ more,
    runBatch engine.recording commands (store, errors)
        = ((runBatch engine commands store).1, (runBatch engine commands store).2, errors ++ more)
      ∧ ((∀ reply ∈ (runBatch engine commands store).1, reply.WellFramed)
        ↔ (∀ command ∈ commands, command.name ∉ commandNames → OneLine (utf8 command.name))
          ∧ ∀ err ∈ more, OneLine (utf8 err)) := by
  induction commands generalizing store errors with
  | nil =>
    refine ⟨[], ?_, ?_⟩
    · rw [List.append_nil]
      rfl
    · have hnil : (runBatch engine [] store).1 = [] := rfl
      simp [hnil]
  | cons command commands ih =>
    obtain ⟨first, hfirst, hframed⟩ := wellFramed_execute_iff engine command store errors
    obtain ⟨rest, hrest, hframedAll⟩ := ih (execute engine command store).2 (errors ++ first)
    refine ⟨first ++ rest, ?_, ?_⟩
    · have hcons : runBatch engine.recording (command :: commands) (store, errors)
          = ((execute engine.recording command (store, errors)).1
              :: (runBatch engine.recording commands
                (execute engine.recording command (store, errors)).2).1,
            (runBatch engine.recording commands
              (execute engine.recording command (store, errors)).2).2) := rfl
      rw [hcons, hfirst, hrest, List.append_assoc]
      rfl
    · have hcons : (runBatch engine (command :: commands) store).1
          = (execute engine command store).1
            :: (runBatch engine commands (execute engine command store).2).1 := rfl
      rw [hcons, List.forall_mem_cons, hframed, hframedAll, List.forall_mem_cons,
        List.forall_mem_append]
      tauto

/-- **Keeping the errors changes nothing** that a command sees or does. -/
theorem runBatch_recording (errors : List String) :
    (runBatch engine.recording commands (store, errors)).1 = (runBatch engine commands store).1
      ∧ (runBatch engine.recording commands (store, errors)).2.1
        = (runBatch engine commands store).2 := by
  obtain ⟨more, hmore, -⟩ := wellFramed_runBatch_iff engine commands store errors
  rw [hmore]
  exact ⟨rfl, rfl⟩

theorem length_runBatch : (runBatch engine commands store).1.length = commands.length := by
  induction commands generalizing store with
  | nil => rfl
  | cons command commands ih => exact congrArg (· + 1) (ih (execute engine command store).2)

/-- **One frame for each command**: a batch has as many replies as commands, and a client reads
exactly these off the stream if and only if the name of no unknown command, and no error that the
store's own `get`, `set` and `delete` returned on the way, holds a line end. -/
theorem decodeReplies_runBatch_iff :
    (runBatch engine commands store).1.length = commands.length
      ∧ (decodeReplies (Reply.encodeAll (runBatch engine commands store).1)
          = some (runBatch engine commands store).1
        ↔ (∀ command ∈ commands, command.name ∉ commandNames → OneLine (utf8 command.name))
          ∧ ∀ err ∈ (runBatch engine.recording commands (store, [])).2.2, OneLine (utf8 err)) := by
  obtain ⟨more, hmore, hiff⟩ := wellFramed_runBatch_iff engine commands store []
  refine ⟨length_runBatch engine commands store, ?_⟩
  rw [decodeReplies_eq_iff, hiff, hmore, List.nil_append]

end

/-- A request for a command whose name is a line end and a plus sign. -/
def forgedRequest : Sent := ⟨[[0x0D, 0x0A, 0x2B]], by decide, by decide, by decide⟩

theorem commandOf_forgedRequest {upper : Char → List Char}
    (h : ∀ c ∈ ['\r', '\n', '+'], upper c = [c]) :
    commandOf upper forgedRequest.strings = ⟨"\r\n+", []⟩ := by
  have hname : commandName upper [0x0D, 0x0A, 0x2B] = "\r\n+" := by
    have htext : (fromUtf8Lossy [0x0D, 0x0A, 0x2B]).toList = ['\r', '\n', '+'] := by decide +kernel
    have hchars : ['\r', '\n', '+'].flatMap upper = ['\r', '\n', '+'] := by
      rw [List.flatMap_congr h]
      rfl
    rw [commandName, toUppercase, htext, hchars]
  exact congrArg (Command.mk · []) hname

/-- The reply to that command is read as two. -/
theorem decodeReplies_forged :
    decodeReplies (Reply.encodeAll (runBatch nothing [⟨"\r\n+", []⟩] ()).1)
      = some [.error "ERR unknown command '", .simple "', with args beginning with:"] := by
  have hbytes : Reply.encodeAll (runBatch nothing [⟨"\r\n+", []⟩] ()).1
      = Reply.encodeAll
        [.error "ERR unknown command '", .simple "', with args beginning with:"] := by
    decide +kernel
  have hlead := oneLine_of_mem_ownTexts "ERR unknown command '" (by simp [ownTexts])
  have htail := oneLine_of_mem_ownTexts "', with args beginning with:" (by simp [ownTexts])
  rw [hbytes, decodeReplies_eq_iff]
  exact List.forall_mem_cons.mpr ⟨hlead, List.forall_mem_singleton.mpr htail⟩

/-- **A client can forge a reply**: a command that the server parses is answered with bytes that do
not read as the reply to it. -/
theorem not_decodeReplies_runBatch :
    ¬ ∃ upper : Char → List Char, (∀ c ∈ ['\r', '\n', '+'], upper c = [c])
      ∧ ∀ (engine : Backend Unit) (store : Unit) (commands : List Command),
        (∀ command ∈ commands, ∃ input used,
          parse upper input = .ok (some (.command command, used))) →
        ∃ replies, decodeReplies (Reply.encodeAll (runBatch engine commands store).1) = some replies
          ∧ replies.length = commands.length := by
  rintro ⟨upper, hupper, h⟩
  have hparse := parse_encode upper forgedRequest []
  rw [commandOf_forgedRequest hupper] at hparse
  obtain ⟨replies, hreplies, hlen⟩ := h nothing () [⟨"\r\n+", []⟩]
    (List.forall_mem_singleton.mpr ⟨_, _, hparse⟩)
  rw [decodeReplies_forged] at hreplies
  obtain rfl := Option.some.inj hreplies
  cases hlen

end Lsmkv.Server
