import Lsmkv.Lib.VersionedMap
import Lsmkv.Server.Replies

/-!
# Commands step by step

Between two calls of a command into the store other connections can run, so for several connections
a command is more than what it does to a store of its own.  `Program` is a command as the calls it
makes: each call with what the command does with the answer.  `run_program` says that the programs
are the commands of `command.rs`: run against a store without interruption, they do what `execute`
does.

`Conn` is a connection of `server.rs` between two of its steps: it waits for bytes, runs a batch of
commands on a blocking thread, or has closed.
-/

namespace Lsmkv.Server

/-! ### Programs -/

/-- The figures `INFO` shows. -/
structure Figures where
  levelSizes : List ℕ
  tableCount : ℕ
  lastSequence : ℕ
  blockReads : ℕ
  bytesWritten : ℕ
  deriving DecidableEq, Repr

/-- What a call into the store returns.  A write that succeeds returns nothing. -/
abbrev Answer : Type := Except String (Option Bytes)

/-- A command as the calls it makes. -/
inductive Program (α : Type) where
  | done (result : α)
  | call (input : MapCall Bytes Bytes) (next : Answer → Program α)
  | figures (next : Figures → Program α)

namespace Program

variable {α β : Type}

/-- One program after the other. -/
def bind : Program α → (α → Program β) → Program β
  | .done result, f => f result
  | .call input next, f => .call input fun answer => (next answer).bind f
  | .figures next, f => .figures fun figures => (next figures).bind f

/-- A program without interruption. -/
def run {σ : Type} (engine : Backend σ) : Program α → StateM σ α
  | .done result => return result
  | .call (.get key) next => do
    let answer ← engine.get key
    (next answer).run engine
  | .call (.put key (some value)) next => do
    let answer ← engine.set key value
    (next (answer.map fun _ => none)).run engine
  | .call (.put key none) next => do
    let answer ← engine.delete key
    (next (answer.map fun _ => none)).run engine
  | .figures next => do
    let store ← get
    (next ⟨engine.levelSizes store, engine.tableCount store, engine.lastSequence store,
      engine.blockReads store, engine.bytesWritten store⟩).run engine

end Program

/-! ### The commands -/

/-- The text of `INFO`. -/
def Figures.info (figures : Figures) : String :=
  "# Server\r\nserver:" ++ serverName ++ "\r\nversion:" ++ serverVersion
    ++ "\r\nproto:2\r\nmode:standalone\r\nrole:master\r\n\r\n# Engine\r\nfiles:"
    ++ toString figures.tableCount ++ "\r\nfiles_per_level:"
    ++ ",".intercalate (figures.levelSizes.map toString) ++ "\r\nlast_sequence:"
    ++ toString figures.lastSequence ++ "\r\nblock_reads:"
    ++ toString figures.blockReads ++ "\r\nbytes_written:"
    ++ toString figures.bytesWritten ++ "\r\n"

def Command.getProgram (command : Command) : Program Reply :=
  match command.args with
  | [key] => .call (.get key) fun
    | .ok (some value) => .done (.bulk value)
    | .ok none => .done .nil
    | .error err => .done (failed err)
  | _ => .done (arity "get")

def Command.setProgram (command : Command) : Program Reply :=
  if 2 < command.args.length then .done (.error "ERR syntax error")
  else
    match command.args with
    | [key, value] => .call (.put key (some value)) fun
      | .ok _ => .done ok
      | .error err => .done (failed err)
    | _ => .done (arity "set")

def delProgram : ℕ → List Bytes → Program Reply
  | removed, [] => .done (.integer removed)
  | removed, key :: keys => .call (.get key) fun
    | .ok (some _) => .call (.put key none) fun
      | .ok _ => delProgram (removed + 1) keys
      | .error err => .done (failed err)
    | .ok none => delProgram removed keys
    | .error err => .done (failed err)

/-- One command. -/
def Command.program (command : Command) : Program Reply :=
  match command.name with
  | "PING" => .done command.ping
  | "GET" => command.getProgram
  | "SET" => command.setProgram
  | "DEL" => if command.args = [] then .done (arity "del") else delProgram 0 command.args
  | "COMMAND" => .done (.array [])
  | "CONFIG" => .done command.config
  | "HELLO" => .done command.hello
  | "INFO" => .figures fun figures => .done (.bulk (utf8 figures.info))
  | "SELECT" => .done command.select
  | "QUIT" => .done ok
  | _ => .done command.unknown

/-- A batch of commands, on one blocking thread. -/
def batchProgram : List Command → Program (List Reply)
  | [] => .done []
  | command :: commands => command.program.bind fun reply =>
    (batchProgram commands).bind fun replies => .done (reply :: replies)

section

variable {σ α β : Type} (engine : Backend σ)

theorem run_bind (program : Program α) (f : α → Program β) :
    (program.bind f).run engine = program.run engine >>= fun result => (f result).run engine := by
  induction program with
  | done result => rfl
  | figures next ih =>
    funext store
    exact congrFun (ih _) store
  | call input next ih =>
    funext store
    match input with
    | .get key => exact congrFun (ih _) _
    | .put key (some value) => exact congrFun (ih _) _
    | .put key none => exact congrFun (ih _) _

theorem run_getProgram (command : Command) :
    command.getProgram.run engine = command.get engine := by
  unfold Command.getProgram Command.get
  generalize command.args = args
  match args with
  | [] | _ :: _ :: _ => rfl
  | [key] =>
    funext store
    simp only [Program.run, bind, StateT.bind]
    rcases engine.get key store with ⟨(err | (_ | value)), store'⟩ <;> rfl

theorem run_setProgram (command : Command) :
    command.setProgram.run engine = command.set engine := by
  unfold Command.setProgram Command.set
  generalize command.args = args
  split_ifs
  · rfl
  · match args with
    | [] | [_] | _ :: _ :: _ :: _ => rfl
    | [key, value] =>
      funext store
      simp only [Program.run, bind, StateT.bind]
      rcases engine.set key value store with ⟨err | _, store'⟩ <;> rfl

theorem run_delProgram (removed : ℕ) (keys : List Bytes) :
    (delProgram removed keys).run engine = delLoop engine removed keys := by
  induction keys generalizing removed with
  | nil => rfl
  | cons key keys ih =>
    funext store
    simp only [delProgram, delLoop, Program.run, bind, StateT.bind]
    rcases engine.get key store with ⟨(err | (_ | value)), store'⟩
    · rfl
    · exact congrFun (ih removed) store'
    · simp only [Program.run, bind, StateT.bind]
      rcases engine.delete key store' with ⟨err | _, store''⟩
      · rfl
      · exact congrFun (ih (removed + 1)) store''

/-- A name the server does not know is answered without the store. -/
theorem program_of_unknown {command : Command} (h : command.name ∉ commandNames) :
    command.program = .done command.unknown := by
  unfold Command.program
  split
  case h_11 => rfl
  all_goals
    rename_i hname
    exact absurd (hname ▸ by decide) h

/-- **A program is its command**: without interruption it does to the store what `execute` does. -/
theorem run_program (command : Command) : command.program.run engine = execute engine command := by
  rcases @execute_cases σ engine command with ⟨hmem, -⟩ | ⟨hmem, hexecute, -⟩
  · simp only [commandNames, List.mem_cons, List.not_mem_nil, or_false] at hmem
    unfold Command.program execute
    rcases hmem with h | h | h | h | h | h | h | h | h | h <;> rw [h]
    case inr.inl => exact run_getProgram engine command
    case inr.inr.inl => exact run_setProgram engine command
    case inr.inr.inr.inl =>
      change _ = command.del engine
      unfold Command.del
      split_ifs
      · rfl
      · exact run_delProgram engine 0 command.args
    all_goals rfl
  · rw [program_of_unknown hmem, hexecute]
    rfl

theorem run_batchProgram (commands : List Command) :
    (batchProgram commands).run engine = runBatch engine commands := by
  induction commands with
  | nil => rfl
  | cons command commands ih =>
    rw [batchProgram, run_bind, run_program, runBatch]
    refine congrArg _ (funext fun reply => ?_)
    rw [run_bind, ih]
    rfl

end

/-! ### Connections -/

/-- A connection, with what it has written so far. -/
inductive Conn where
  /-- Waits for more bytes behind those of its buffer. -/
  | reading (input output : Bytes)
  /-- Runs a batch.  Then it writes the replies, and the error that ended the batch if one did. -/
  | running (program : Program (List Reply)) (closing : Bool) (protocolError : Option String)
    (input output : Bytes)
  | closed (output : Bytes)

namespace Conn

/-- What the connection has written. -/
def output : Conn → Bytes
  | .reading _ output | .running _ _ _ _ output | .closed output => output

/-- A read.  The one that finds the end of the stream returns no bytes. -/
def receive (upper : Char → List Char) (read : Bytes) : Conn → Option Conn
  | .reading input output =>
    if read = [] then some (.closed output)
    else
      let (batch, input) := takeBatch upper (input ++ read)
      let closing := batch.commands.any (·.name = "QUIT")
      some (.running (batchProgram batch.commands) closing batch.protocolError input output)
  | _ => none

/-- The batch has run, and its replies are written. -/
def respond : Conn → Option Conn
  | .running (.done replies) closing protocolError input output =>
    let output := output ++ Reply.encodeAll replies ++
      match protocolError with
      | some message => (Reply.error message).encode
      | none => []
    some (if closing || protocolError.isSome then .closed output else .reading input output)
  | _ => none

/-- The call into the store that comes next. -/
def awaits : Conn → Option (MapCall Bytes Bytes)
  | .running (.call input _) _ _ _ _ => some input
  | _ => none

/-- The call into the store returns. -/
def resume (answer : Answer) : Conn → Option Conn
  | .running (.call _ next) closing protocolError input output =>
    some (.running (next answer) closing protocolError input output)
  | _ => none

/-- The figures of the store are there. -/
def inform (figures : Figures) : Conn → Option Conn
  | .running (.figures next) closing protocolError input output =>
    some (.running (next figures) closing protocolError input output)
  | _ => none

/-- What a connection does without the map: it reads, writes, looks at the figures of the store, or
has a call that fails and does nothing. -/
inductive Silent (upper : Char → List Char) (c c' : Conn) : Prop
  | receive {read : Bytes} (h : c.receive upper read = some c')
  | respond (h : c.respond = some c')
  | inform {figures : Figures} (h : c.inform figures = some c')
  | refuse {err : String} (h : c.resume (.error err) = some c')

/-- A call on the map returns.  A write may report an error though it is done, since the rotation of
the memtable that comes last in it can fail. -/
inductive Served (c : Conn) (input : MapCall Bytes Bytes) (output : Option Bytes) (c' : Conn) : Prop
  | returns (hawaits : c.awaits = some input) (h : c.resume (.ok output) = some c')
  | reports {key : Bytes} {value : Option Bytes} {err : String} (hinput : input = .put key value)
    (hawaits : c.awaits = some input) (h : c.resume (.error err) = some c')

variable {c c' : Conn}

/-- A connection that moves by itself, and not because a call failed, awaits none. -/
theorem awaits_of_receive {upper : Char → List Char} {read : Bytes}
    (h : c.receive upper read = some c') : c.awaits = none := by
  cases c with
  | reading => rfl
  | running => cases h
  | closed => rfl

theorem awaits_of_respond (h : c.respond = some c') : c.awaits = none := by
  cases c with
  | running program => cases program with
    | done | figures => rfl
    | call => cases h
  | reading | closed => rfl

theorem awaits_of_inform {figures : Figures} (h : c.inform figures = some c') :
    c.awaits = none := by
  cases c with
  | running program => cases program with
    | done | figures => rfl
    | call => cases h
  | reading | closed => rfl

end Conn

end Lsmkv.Server
