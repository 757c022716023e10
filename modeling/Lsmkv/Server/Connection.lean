import Lsmkv.Server.Command
import Lsmkv.Server.Pipeline

/-!
# A connection (`serve`)

The server reads a chunk, takes the complete requests off its buffer, runs them as one batch and
writes the replies.  It closes the connection after a batch with a `QUIT` in it, and that batch runs
whole: commands that arrived together with the `QUIT` run, commands that arrived later do not.

`serve_eq_iff` says for which streams of arrays this does not matter: those in which no command ends
within one read of the end of the first `QUIT`.  For these the commands that run are the ones up to
the `QUIT` (`serve_eq_answer`).
-/

namespace Lsmkv.Server

/-- `READ_CHUNK`. -/
def readChunk : ℕ := 16 * 1024

/-- What a connection did: the commands it ran, what it wrote, and the store it left. -/
structure Served (σ : Type) where
  commands : List Command
  output : Bytes
  store : σ

/-- One after the other. -/
def Served.andThen {σ : Type} (first : Served σ) (next : σ → Served σ) : Served σ :=
  ⟨first.commands ++ (next first.store).commands, first.output ++ (next first.store).output,
    (next first.store).store⟩

section

variable {σ : Type} (engine : Backend σ)

/-- Runs a batch of commands. -/
def runBatch : List Command → StateM σ (List Reply)
  | [] => return []
  | command :: commands => do
    let reply ← execute engine command
    let replies ← runBatch commands
    return reply :: replies

/-- A batch and its replies on the wire. -/
def answer (commands : List Command) (store : σ) : Served σ :=
  let (replies, store) := runBatch engine commands store
  ⟨commands, Reply.encodeAll replies, store⟩

/-- Reads commands off one connection until it closes.  The read that finds the end of the stream
returns no bytes. -/
def serve (upper : Char → List Char) : Bytes → List Bytes → σ → Served σ
  | _, [], store => ⟨[], [], store⟩
  | input, read :: reads, store =>
    if read = [] then ⟨[], [], store⟩
    else
      let (batch, input) := takeBatch upper (input ++ read)
      let closing := batch.commands.any (·.name = "QUIT")
      let (replies, store) := runBatch engine batch.commands store
      let output := Reply.encodeAll replies ++
        match batch.protocolError with
        | some message => (Reply.error message).encode
        | none => []
      if closing || batch.protocolError.isSome then ⟨batch.commands, output, store⟩
      else Served.andThen ⟨batch.commands, output, store⟩ (serve upper input reads)

end

variable {σ : Type} {engine : Backend σ} {upper : Char → List Char}

/-! ### Batches one after the other -/

theorem Served.andThen_assoc (first : Served σ) (next last : σ → Served σ) :
    (first.andThen next).andThen last = first.andThen fun store => (next store).andThen last := by
  simp only [Served.andThen, List.append_assoc]

theorem encodeAll_append (first second : List Reply) :
    Reply.encodeAll (first ++ second) = Reply.encodeAll first ++ Reply.encodeAll second := by
  induction first with
  | nil => rfl
  | cons reply first ih =>
    rw [List.cons_append, Reply.encodeAll, ih, Reply.encodeAll, List.append_assoc]

theorem runBatch_append (first second : List Command) (store : σ) :
    runBatch engine (first ++ second) store
      = ((runBatch engine first store).1
        ++ (runBatch engine second (runBatch engine first store).2).1,
        (runBatch engine second (runBatch engine first store).2).2) := by
  induction first generalizing store with
  | nil => rfl
  | cons command first ih =>
    change ((execute engine command store).1
        :: (runBatch engine (first ++ second) (execute engine command store).2).1,
      (runBatch engine (first ++ second) (execute engine command store).2).2) = _
    rw [ih]
    rfl

theorem answer_append (first second : List Command) (store : σ) :
    answer engine (first ++ second) store
      = (answer engine first store).andThen (answer engine second) := by
  rw [answer, runBatch_append]
  dsimp only
  rw [encodeAll_append]
  rfl

/-! ### Reading arrays -/

/-- The commands of some arrays. -/
def commandsOf (requests : List (ArrayRequest upper)) : List Command :=
  requests.filterMap fun array => array.request.command?

theorem commandsOf_append (first second : List (ArrayRequest upper)) :
    commandsOf (first ++ second) = commandsOf first ++ commandsOf second := List.filterMap_append

/-- Whether the array is a `QUIT`. -/
def ArrayRequest.isQuit (array : ArrayRequest upper) : Bool :=
  array.request.command?.any (·.name = "QUIT")

theorem any_commandsOf (requests : List (ArrayRequest upper)) :
    (commandsOf requests).any (·.name = "QUIT") = requests.any ArrayRequest.isQuit := by
  induction requests with
  | nil => rfl
  | cons array requests ih =>
    rw [List.any_cons, ← ih, commandsOf, List.filterMap_cons, ArrayRequest.isQuit]
    cases array.request.command? with
    | none => rfl
    | some command => rfl

/-- The start of an array, cut anywhere, is waited for. -/
def Waits (upper : Char → List Char) (start : Bytes) : Prop :=
  ∀ x y : Bytes, x ++ y = start → parse upper x = .ok none

theorem waits_nil : Waits upper [] := by
  intro x y h
  obtain ⟨rfl, -⟩ := List.append_eq_nil_iff.mp h
  exact parse_nil

theorem ArrayRequest.waits_of_cut (array : ArrayRequest upper) {start rest : Bytes}
    (h : start ++ rest = array.bytes) (hrest : rest ≠ []) : Waits upper start := by
  rintro x y rfl
  rw [List.append_assoc] at h
  exact array.parse_of_cut h (List.append_ne_nil_of_right_ne_nil y hrest)

theorem Waits.of_append {x y : Bytes} (h : Waits upper (x ++ y)) : Waits upper x := by
  rintro a b rfl
  exact h a (b ++ y) (List.append_assoc a b y).symm

/-- Some arrays that are cut anywhere are whole arrays and the start of one. -/
theorem exists_cut {requests : List (ArrayRequest upper)} {x y start : Bytes}
    (h : x ++ y = requests.flatMap ArrayRequest.bytes ++ start) (hstart : Waits upper start) :
    ∃ done left x', requests = done ++ left ∧ x = done.flatMap ArrayRequest.bytes ++ x'
      ∧ Waits upper x' ∧ x' ++ y = left.flatMap ArrayRequest.bytes ++ start := by
  induction requests generalizing x with
  | nil =>
    rw [List.flatMap_nil, List.nil_append] at h
    exact ⟨[], [], x, rfl, rfl, Waits.of_append (h ▸ hstart), h⟩
  | cons array requests ih =>
    rw [List.flatMap_cons, List.append_assoc] at h
    -- either the cut is inside the first array or behind it
    have hcases : (∃ rest, rest ≠ [] ∧ x ++ rest = array.bytes)
        ∨ ∃ x', x = array.bytes ++ x' ∧ x' ++ y = requests.flatMap ArrayRequest.bytes ++ start := by
      rcases List.append_eq_append_iff.mp h with ⟨rest, hbytes, hy⟩ | ⟨x', hx, hx'⟩
      · by_cases hrest : rest = []
        · rw [hrest, List.append_nil] at hbytes
          rw [hrest, List.nil_append] at hy
          exact .inr ⟨[], by rw [hbytes, List.append_nil], hy⟩
        · exact .inl ⟨rest, hrest, hbytes.symm⟩
      · exact .inr ⟨x', hx, hx'.symm⟩
    rcases hcases with ⟨rest, hrest, hbytes⟩ | ⟨x', rfl, hx'⟩
    · refine ⟨[], array :: requests, x, rfl, rfl, array.waits_of_cut hbytes hrest, ?_⟩
      rw [List.flatMap_cons, List.append_assoc, h]
    · obtain ⟨done, left, x'', rfl, rfl, hwaits, hleft⟩ := ih hx'
      refine ⟨array :: done, left, x'', rfl, ?_, hwaits, hleft⟩
      rw [List.flatMap_cons, List.append_assoc]

/-- There is no whole array in what is waited for. -/
theorem Waits.length_lt {requests : List (ArrayRequest upper)} {input y z : Bytes}
    (hinput : Waits upper input) (h : input ++ y = requests.flatMap ArrayRequest.bytes ++ z)
    (hne : requests ≠ []) : input.length < (requests.flatMap ArrayRequest.bytes).length := by
  by_contra! hle
  obtain ⟨x, rfl⟩ : requests.flatMap ArrayRequest.bytes <+: input :=
    List.prefix_of_prefix_length_le ⟨z, h.symm⟩ (List.prefix_append input y) hle
  cases requests with
  | nil => exact hne rfl
  | cons array requests =>
    have hnone := hinput _ [] (List.append_nil _)
    rw [List.flatMap_cons, List.append_assoc, determined_parse.append array.parses] at hnone
    cases hnone

/-- One read of arrays: those that are complete run, and it goes on unless there is a `QUIT` among
them. -/
theorem serve_cons {done : List (ArrayRequest upper)} {input read start : Bytes}
    (h : input ++ read = done.flatMap ArrayRequest.bytes ++ start) (hstart : Waits upper start)
    (hread : read ≠ []) (reads : List Bytes) (store : σ) :
    serve engine upper input (read :: reads) store
      = if done.any ArrayRequest.isQuit then answer engine (commandsOf done) store
        else (answer engine (commandsOf done) store).andThen (serve engine upper start reads) := by
  have hstops : Stops (parse upper) start none := hstart start [] (List.append_nil start)
  have hbatch := takeBatch_of_takes (takes_flatMap done start) hstops
  rw [List.filterMap_map] at hbatch
  rw [serve, if_neg hread, h, hbatch]
  dsimp only
  rw [← any_commandsOf]
  simp only [Option.map_none, Option.isSome_none, Bool.or_false, List.append_nil]
  rfl

/-- Reads without a `QUIT` run what is complete. -/
theorem serve_append {done : List (ArrayRequest upper)} {input start : Bytes} {reads : List Bytes}
    (h : input ++ reads.flatten = done.flatMap ArrayRequest.bytes ++ start)
    (hinput : Waits upper input) (hstart : Waits upper start) (hreads : ∀ read ∈ reads, read ≠ [])
    (hcalm : done.any ArrayRequest.isQuit = false) (more : List Bytes) (store : σ) :
    serve engine upper input (reads ++ more) store
      = (answer engine (commandsOf done) store).andThen (serve engine upper start more) := by
  induction reads generalizing input done store with
  | nil =>
    rw [List.flatten_nil, List.append_nil] at h
    cases done with
    | nil =>
      rw [h]
      rfl
    | cons array done =>
      have hlt := hinput.length_lt ((List.append_nil input).trans h) (List.cons_ne_nil array done)
      rw [h, List.length_append] at hlt
      omega
  | cons read reads ih =>
    rw [List.flatten_cons, ← List.append_assoc] at h
    obtain ⟨first, left, start₁, rfl, hfirst, hwaits, hleft⟩ := exists_cut h hstart
    obtain ⟨hread, hreads⟩ := List.forall_mem_cons.mp hreads
    rw [List.any_append, Bool.or_eq_false_iff] at hcalm
    rw [List.cons_append, serve_cons hfirst hwaits hread, hcalm.1, commandsOf_append, answer_append,
      Served.andThen_assoc, if_neg Bool.false_ne_true]
    exact congrArg _ (funext fun store => ih hleft hwaits hreads hcalm.2 store)

/-! ### Splitting a stream -/

/-- A way in which a stream can arrive: a read returns something, and no more than fits. -/
structure Splits (reads : List Bytes) (stream : Bytes) : Prop where
  flatten : reads.flatten = stream
  ne_nil : ∀ read ∈ reads, read ≠ []
  length_le : ∀ read ∈ reads, read.length ≤ readChunk

/-- A byte at a time. -/
def singles (bytes : Bytes) : List Bytes := bytes.map fun b => [b]

theorem splits_singles (bytes : Bytes) : Splits (singles bytes) bytes := by
  refine ⟨?_, fun read hread => ?_, fun read hread => ?_⟩
  · induction bytes with
    | nil => rfl
    | cons b bytes ih => rw [singles, List.map_cons, List.flatten_cons, ← singles, ih]; rfl
  · obtain ⟨b, -, rfl⟩ := List.mem_map.mp hread
    exact List.cons_ne_nil b []
  · obtain ⟨b, -, rfl⟩ := List.mem_map.mp hread
    exact (by decide : 1 ≤ readChunk)

theorem Splits.append {reads reads' : List Bytes} {x y : Bytes} (h : Splits reads x)
    (h' : Splits reads' y) : Splits (reads ++ reads') (x ++ y) := by
  refine ⟨by rw [List.flatten_append, h.flatten, h'.flatten], ?_, ?_⟩
  · exact List.forall_mem_append.mpr ⟨h.ne_nil, h'.ne_nil⟩
  · exact List.forall_mem_append.mpr ⟨h.length_le, h'.length_le⟩

theorem Splits.cons {reads : List Bytes} {x read : Bytes} (h : Splits reads x) (hne : read ≠ [])
    (hle : read.length ≤ readChunk) : Splits (read :: reads) (read ++ x) := by
  refine ⟨by rw [List.flatten_cons, h.flatten], ?_, ?_⟩
  · exact List.forall_mem_cons.mpr ⟨hne, h.ne_nil⟩
  · exact List.forall_mem_cons.mpr ⟨hle, h.length_le⟩

/-! ### Commands behind a `QUIT` -/

/-- The commands up to the first `QUIT`. -/
def untilQuit : List Command → List Command
  | [] => []
  | command :: commands =>
    if command.name = "QUIT" then [command] else command :: untilQuit commands

theorem untilQuit_append {first : List Command} (h : first.any (·.name = "QUIT") = false)
    (second : List Command) : untilQuit (first ++ second) = first ++ untilQuit second := by
  induction first with
  | nil => rfl
  | cons command first ih =>
    rw [List.any_cons, Bool.or_eq_false_iff] at h
    rw [List.cons_append, untilQuit, if_neg (of_decide_eq_false h.1), ih h.2, List.cons_append]

/-- No command ends so soon behind the first `QUIT` that one read can bring its end and the end of
the `QUIT`. -/
def QuitAlone (requests : List (ArrayRequest upper)) : Prop :=
  ∀ before quit between command after,
    requests = before ++ quit :: (between ++ command :: after) →
    before.any ArrayRequest.isQuit = false → quit.isQuit = true → command.request ≠ .empty →
    readChunk ≤ ((between ++ [command]).flatMap ArrayRequest.bytes).length

theorem QuitAlone.of_append {first second : List (ArrayRequest upper)}
    (h : QuitAlone (first ++ second)) (hcalm : first.any ArrayRequest.isQuit = false) :
    QuitAlone second := by
  rintro before quit between command after rfl hbefore
  refine h (first ++ before) quit between command after (List.append_assoc ..).symm ?_
  rw [List.any_append, hcalm, hbefore]
  rfl

/-- The first `QUIT` of some arrays. -/
theorem exists_quit {requests : List (ArrayRequest upper)}
    (h : requests.any ArrayRequest.isQuit = true) :
    ∃ before quit behind, requests = before ++ quit :: behind
      ∧ before.any ArrayRequest.isQuit = false ∧ quit.isQuit = true := by
  obtain ⟨quit, hfind⟩ :=
    Option.isSome_iff_exists.mp ((List.find?_isSome).mpr (List.any_eq_true.mp h))
  obtain ⟨hquit, before, behind, hrequests, hbefore⟩ := List.find?_eq_some_iff_append.mp hfind
  refine ⟨before, quit, behind, hrequests, ?_, hquit⟩
  rw [List.any_eq_false]
  intro array harray
  simpa using hbefore array harray

theorem exists_command_of_isQuit {array : ArrayRequest upper} (h : array.isQuit = true) :
    ∃ command, array.request.command? = some command ∧ command.name = "QUIT" := by
  obtain ⟨command, hcommand, hname⟩ := (Option.any_eq_true ..).mp h
  exact ⟨command, hcommand, of_decide_eq_true hname⟩

/-- A command behind the first `QUIT` did not arrive in the same read. -/
theorem QuitAlone.commandsOf_behind {before behind left : List (ArrayRequest upper)}
    {quit : ArrayRequest upper} {input read start : Bytes}
    (halone : QuitAlone (before ++ quit :: behind ++ left))
    (hbefore : before.any ArrayRequest.isQuit = false) (hquit : quit.isQuit = true)
    (hinput : Waits upper input) (hle : read.length ≤ readChunk)
    (h : input ++ read = (before ++ quit :: behind).flatMap ArrayRequest.bytes ++ start) :
    commandsOf behind = [] := by
  -- the read brought the end of the `QUIT`, so less than a read is behind it
  have hlt : input.length < ((before ++ [quit]).flatMap ArrayRequest.bytes).length := by
    refine hinput.length_lt (y := read) (z := behind.flatMap ArrayRequest.bytes ++ start) ?_
      (List.append_ne_nil_of_right_ne_nil before (List.cons_ne_nil quit []))
    rw [h, List.append_cons, List.flatMap_append, List.append_assoc]
  have hlen := congrArg List.length h
  rw [List.append_cons, List.flatMap_append, List.length_append, List.length_append,
    List.length_append] at hlen
  have hbehind : (behind.flatMap ArrayRequest.bytes).length < readChunk := by omega
  refine List.filterMap_eq_nil_iff.mpr fun array harray => ?_
  by_contra hcommand
  have hempty : array.request ≠ .empty := by
    intro hempty
    rw [hempty] at hcommand
    exact hcommand rfl
  obtain ⟨between, after, rfl⟩ := List.append_of_mem harray
  have hfar := halone before quit between array (after ++ left)
    (by simp only [List.append_assoc, List.cons_append]) hbefore hquit hempty
  rw [List.append_cons, List.flatMap_append, List.length_append] at hbehind
  omega

/-- **What runs**: the commands up to the first `QUIT`, if no other is close behind it. -/
theorem serve_eq_answer {requests : List (ArrayRequest upper)} {input : Bytes} {reads : List Bytes}
    (h : input ++ reads.flatten = requests.flatMap ArrayRequest.bytes) (hinput : Waits upper input)
    (hne : ∀ read ∈ reads, read ≠ []) (hle : ∀ read ∈ reads, read.length ≤ readChunk)
    (halone : QuitAlone requests) (store : σ) :
    serve engine upper input reads store
      = answer engine (untilQuit (commandsOf requests)) store := by
  induction reads generalizing input requests store with
  | nil =>
    cases requests with
    | nil => rfl
    | cons array requests =>
      rw [List.flatten_nil] at h
      have hlt := hinput.length_lt (h.trans (List.append_nil _).symm)
        (List.cons_ne_nil array requests)
      rw [← h, List.append_nil] at hlt
      exact absurd hlt (lt_irrefl _)
  | cons read reads ih =>
    obtain ⟨hread, hne⟩ := List.forall_mem_cons.mp hne
    obtain ⟨hreadLe, hle⟩ := List.forall_mem_cons.mp hle
    rw [List.flatten_cons, ← List.append_assoc, ← List.append_nil (requests.flatMap _)] at h
    obtain ⟨done, left, start, rfl, hdone, hwaits, hleft⟩ := exists_cut h waits_nil
    rw [List.append_nil] at hleft
    rw [serve_cons hdone hwaits hread, commandsOf_append]
    split_ifs with hclosing
    · obtain ⟨before, quit, behind, rfl, hbefore, hquit⟩ := exists_quit hclosing
      obtain ⟨command, hcommand, hname⟩ := exists_command_of_isQuit hquit
      have hbehind := halone.commandsOf_behind hbefore hquit hinput hreadLe hdone
      have hcommands : commandsOf (before ++ quit :: behind) = commandsOf before ++ [command] := by
        rw [commandsOf_append, commandsOf, commandsOf, List.filterMap_cons, hcommand, ← commandsOf,
          ← commandsOf, hbehind]
      rw [hcommands, List.append_assoc, untilQuit_append (by rw [any_commandsOf, hbefore]),
        List.singleton_append, untilQuit, if_pos hname]
    · rw [Bool.not_eq_true] at hclosing
      rw [untilQuit_append (by rw [any_commandsOf, hclosing]), answer_append]
      exact congrArg _ (funext fun store =>
        ih hleft hwaits hne hle (halone.of_append hclosing) store)

theorem commands_serve_quit {done : List (ArrayRequest upper)} {input read : Bytes}
    (h : input ++ read = done.flatMap ArrayRequest.bytes) (hread : read ≠ [])
    (hquit : done.any ArrayRequest.isQuit = true) (reads : List Bytes) (store : σ) :
    (serve engine upper input (read :: reads) store).commands = commandsOf done := by
  rw [serve_cons (h.trans (List.append_nil _).symm) waits_nil hread, if_pos hquit]
  rfl

theorem length_commandsOf_lt {first between : List (ArrayRequest upper)}
    {array : ArrayRequest upper}
    (h : array.request ≠ .empty) :
    (commandsOf first).length < (commandsOf (first ++ (between ++ [array]))).length := by
  have hlast : (commandsOf [array]).length = 1 := by
    rw [commandsOf, List.filterMap_cons]
    cases hrequest : array.request with
    | command command => rfl
    | empty => exact absurd hrequest h
  rw [commandsOf_append, commandsOf_append, List.length_append, List.length_append, hlast]
  omega

/-- A command close behind the `QUIT` runs or not, as it arrives. -/
theorem exists_splits_ne (before between after : List (ArrayRequest upper))
    {quit array : ArrayRequest upper} (hbefore : before.any ArrayRequest.isQuit = false)
    (hquit : quit.isQuit = true) (harray : array.request ≠ .empty)
    (hclose : ((between ++ [array]).flatMap ArrayRequest.bytes).length < readChunk)
    (engine : Backend σ) (store : σ) :
    ∃ reads reads',
      Splits reads ((before ++ quit :: (between ++ array :: after)).flatMap ArrayRequest.bytes)
      ∧ Splits reads' ((before ++ quit :: (between ++ array :: after)).flatMap ArrayRequest.bytes)
      ∧ (serve engine upper [] reads store).commands
        ≠ (serve engine upper [] reads' store).commands := by
  -- all but the last byte of the `QUIT` arrives a byte at a time
  obtain ⟨init, last, hlast⟩ : ∃ init last, init ++ [last] = quit.bytes := by
    refine ⟨_, _, List.dropLast_append_getLast fun hnil => ?_⟩
    have hstar := quit.star
    rw [hnil] at hstar
    cases hstar
  have hwaits : Waits upper init := quit.waits_of_cut hlast (List.cons_ne_nil last [])
  have hopen := splits_singles (before.flatMap ArrayRequest.bytes ++ init)
  set opening := singles (before.flatMap ArrayRequest.bytes ++ init)
  set behind := (between ++ [array]).flatMap ArrayRequest.bytes with hbehind
  set afterwards := after.flatMap ArrayRequest.bytes with hafterwards
  have hstream : (before ++ quit :: (between ++ array :: after)).flatMap ArrayRequest.bytes
      = before.flatMap ArrayRequest.bytes ++ init ++ ([last] ++ behind ++ afterwards) := by
    rw [List.append_cons between, List.flatMap_append, List.flatMap_cons, List.flatMap_append,
      ← hbehind, ← hafterwards, ← hlast]
    simp only [List.append_assoc]
  have hserve : ∀ more, (serve engine upper [] (opening ++ more) store).commands
      = commandsOf before
        ++ (serve engine upper init more
          (answer engine (commandsOf before) store).store).commands := by
    intro more
    rw [serve_append hopen.flatten waits_nil hwaits hopen.ne_nil hbefore more store]
    rfl
  -- then its last byte, alone or with the command
  refine ⟨opening ++ [last] :: singles (behind ++ afterwards),
    opening ++ ([last] ++ behind) :: singles afterwards, ?_, ?_, fun heq => ?_⟩
  · rw [hstream, List.append_assoc [last]]
    refine hopen.append ((splits_singles _).cons (List.cons_ne_nil last []) ?_)
    rw [List.length_singleton]
    omega
  · rw [hstream]
    refine hopen.append ((splits_singles _).cons (List.cons_ne_nil last _) ?_)
    rw [List.length_append, List.length_singleton]
    omega
  · have halone : init ++ [last] = [quit].flatMap ArrayRequest.bytes := by
      rw [List.flatMap_singleton, hlast]
    have htogether : init ++ ([last] ++ behind)
        = ([quit] ++ (between ++ [array])).flatMap ArrayRequest.bytes := by
      rw [List.flatMap_append, ← halone, List.append_assoc]
    have hany : ([quit] ++ (between ++ [array])).any ArrayRequest.isQuit = true := by
      rw [List.singleton_append, List.any_cons, hquit, Bool.true_or]
    rw [hserve, hserve,
      commands_serve_quit halone (List.cons_ne_nil last []) (by rw [List.any_cons, hquit]; rfl),
      commands_serve_quit htogether (List.cons_ne_nil last _) hany] at heq
    have hlen := congrArg List.length (List.append_cancel_left heq)
    exact absurd hlen (length_commandsOf_lt harray).ne

/-- **When the reads of a connection do not matter**: exactly if no command ends within one read of
the end of the first `QUIT`. -/
theorem serve_eq_iff (engine : Backend σ) (requests : List (ArrayRequest upper)) (store : σ) :
    (∀ reads reads', Splits reads (requests.flatMap ArrayRequest.bytes) →
        Splits reads' (requests.flatMap ArrayRequest.bytes) →
        serve engine upper [] reads store = serve engine upper [] reads' store)
      ↔ QuitAlone requests := by
  constructor
  · rintro h before quit between array after rfl hbefore hquit harray
    by_contra! hclose
    obtain ⟨reads, reads', hreads, hreads', hne⟩ :=
      exists_splits_ne before between after hbefore hquit harray hclose engine store
    exact hne (congrArg Served.commands (h reads reads' hreads hreads'))
  · intro halone reads reads' h h'
    rw [serve_eq_answer (by rw [List.nil_append, h.flatten]) waits_nil h.ne_nil h.length_le halone,
      serve_eq_answer (by rw [List.nil_append, h'.flatten]) waits_nil h'.ne_nil h'.length_le halone]

/-! ### A `QUIT` with a command behind it -/

/-- A store in which nothing is found and nothing is kept. -/
def nothing : Backend Unit where
  get _ := return .ok none
  set _ _ := return .ok ()
  delete _ := return .ok ()
  levelSizes _ := []
  tableCount _ := 0
  lastSequence _ := 0
  blockReads _ := 0
  bytesWritten _ := 0

/-- The request `QUIT`. -/
def quitRequest : Sent := ⟨[[0x51, 0x55, 0x49, 0x54]], by decide, by decide, by decide⟩

theorem isQuit_quitRequest (h : ∀ c ∈ ['Q', 'U', 'I', 'T'], upper c = [c]) :
    (quitRequest.toArray upper).isQuit = true := by
  have hname : commandName upper [0x51, 0x55, 0x49, 0x54] = "QUIT" := by
    have htext : (fromUtf8Lossy [0x51, 0x55, 0x49, 0x54]).toList = ['Q', 'U', 'I', 'T'] := by
      decide +kernel
    have hletters : ['Q', 'U', 'I', 'T'].flatMap upper = ['Q', 'U', 'I', 'T'] := by
      rw [List.flatMap_congr h]
      rfl
    rw [commandName, toUppercase, htext, hletters]
  exact decide_eq_true hname

/-- It matters how a `QUIT` and a `PING` arrive. -/
theorem not_serve_eq :
    ¬ ∃ upper : Char → List Char, (∀ c ∈ ['Q', 'U', 'I', 'T'], upper c = [c])
      ∧ ∀ (engine : Backend Unit) (requests : List (ArrayRequest upper)) (store : Unit)
        (reads reads' : List Bytes), Splits reads (requests.flatMap ArrayRequest.bytes) →
        Splits reads' (requests.flatMap ArrayRequest.bytes) →
        serve engine upper [] reads store = serve engine upper [] reads' store := by
  rintro ⟨upper, hupper, h⟩
  have hclose : (([] ++ [pingRequest.toArray upper]).flatMap ArrayRequest.bytes).length
      < readChunk := by
    rw [List.nil_append, List.flatMap_singleton]
    change pingRequest.encode.length < readChunk
    decide +kernel
  obtain ⟨reads, reads', hreads, hreads', hne⟩ := exists_splits_ne [] [] [] rfl
    (isQuit_quitRequest hupper) Request.noConfusion hclose nothing ()
  exact hne (congrArg Served.commands (h nothing _ () reads reads' hreads hreads'))

end Lsmkv.Server
