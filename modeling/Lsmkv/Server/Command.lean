import Lsmkv.Server.Resp

/-!
# Commands (`command.rs`)

A command runs against the store and is answered with one reply.  The store is a parameter: a
`Backend` says what reading, writing and deleting a key return and how they change it, and what its
figures are.  `execute_of_not_store` says which commands leave it alone.
-/

namespace Lsmkv.Server

/-- What a command can ask of the store.  The text of an error is what `Display` writes. -/
structure Backend (σ : Type) where
  get : Bytes → StateM σ (Except String (Option Bytes))
  set : Bytes → Bytes → StateM σ (Except String Unit)
  delete : Bytes → StateM σ (Except String Unit)
  levelSizes : σ → List ℕ
  tableCount : σ → ℕ
  lastSequence : σ → ℕ
  blockReads : σ → ℕ
  bytesWritten : σ → ℕ

/-- `SERVER_NAME`. -/
def serverName : String := "lsmkv"

/-- `SERVER_VERSION`, the version of the package. -/
def serverVersion : String := "0.1.0"

/-- The argument at `index`, if there is one. -/
def Command.arg (command : Command) (index : ℕ) : Option Bytes := command.args[index]?

/-! ### Replies that commands share -/

def ok : Reply := .simple "OK"

def failed (err : String) : Reply := .error ("ERR the store failed: " ++ err)

def arity (name : String) : Reply :=
  .error ("ERR wrong number of arguments for '" ++ name ++ "' command")

def Command.unknown (command : Command) : Reply :=
  .error ("ERR unknown command '" ++ command.name ++ "', with args beginning with:")

/-! ### Commands without the store -/

def Command.ping (command : Command) : Reply :=
  match command.args with
  | [] => .simple "PONG"
  | [message] => .bulk message
  | _ => arity "ping"

/-- `u8::to_ascii_uppercase`. -/
def toAsciiUppercase (b : UInt8) : UInt8 := if 0x61 ≤ b ∧ b ≤ 0x7A then b - 0x20 else b

def Command.config (command : Command) : Reply :=
  match ((command.arg 0).map (List.map toAsciiUppercase) : Option Bytes) with
  | some [0x47, 0x45, 0x54] => .array []
  | _ => .error "ERR only CONFIG GET is supported"

def Command.hello (command : Command) : Reply :=
  match command.arg 0 with
  | some version => if version ≠ [0x32] then noProto else greeting
  | none => greeting
where
  noProto : Reply := .error "NOPROTO unsupported protocol version, this server speaks RESP2"
  greeting : Reply := .array
    [.bulk (utf8 "server"), .bulk (utf8 serverName), .bulk (utf8 "version"),
      .bulk (utf8 serverVersion), .bulk (utf8 "proto"), .integer 2, .bulk (utf8 "mode"),
      .bulk (utf8 "standalone"), .bulk (utf8 "role"), .bulk (utf8 "master"),
      .bulk (utf8 "modules"), .array []]

def Command.select (command : Command) : Reply :=
  match command.arg 0 with
  | some [0x30] => ok
  | some _ => .error "ERR DB index is out of range"
  | none => arity "select"

/-! ### Commands on the store -/

section

variable {σ : Type} (engine : Backend σ)

def Command.get (command : Command) : StateM σ Reply :=
  match command.args with
  | [key] => do
    match ← engine.get key with
    | .ok (some value) => return .bulk value
    | .ok none => return .nil
    | .error err => return failed err
  | _ => return arity "get"

def Command.set (command : Command) : StateM σ Reply :=
  -- the options that a third argument would be are not implemented
  if 2 < command.args.length then return .error "ERR syntax error"
  else
    match command.args with
    | [key, value] => do
      match ← engine.set key value with
      | .ok () => return ok
      | .error err => return failed err
    | _ => return arity "set"

/-- The loop of `del`: a key counts if it was there. -/
def delLoop : ℕ → List Bytes → StateM σ Reply
  | removed, [] => return .integer removed
  | removed, key :: keys => do
    match ← engine.get key with
    | .ok (some _) =>
      match ← engine.delete key with
      | .ok () => delLoop (removed + 1) keys
      | .error err => return failed err
    | .ok none => delLoop removed keys
    | .error err => return failed err

def Command.del (command : Command) : StateM σ Reply :=
  if command.args = [] then return arity "del" else delLoop engine 0 command.args

/-- What the store is doing. -/
def info (store : σ) : String :=
  "# Server\r\nserver:" ++ serverName ++ "\r\nversion:" ++ serverVersion
    ++ "\r\nproto:2\r\nmode:standalone\r\nrole:master\r\n\r\n# Engine\r\nfiles:"
    ++ toString (engine.tableCount store) ++ "\r\nfiles_per_level:"
    ++ ",".intercalate ((engine.levelSizes store).map toString) ++ "\r\nlast_sequence:"
    ++ toString (engine.lastSequence store) ++ "\r\nblock_reads:"
    ++ toString (engine.blockReads store) ++ "\r\nbytes_written:"
    ++ toString (engine.bytesWritten store) ++ "\r\n"

/-- Runs one command against the store. -/
def execute (command : Command) : StateM σ Reply :=
  match command.name with
  | "PING" => return command.ping
  | "GET" => command.get engine
  | "SET" => command.set engine
  | "DEL" => command.del engine
  | "COMMAND" => return .array []
  | "CONFIG" => return command.config
  | "HELLO" => return command.hello
  | "INFO" => do return .bulk (utf8 (info engine (← get)))
  | "SELECT" => return command.select
  | "QUIT" => return ok
  | _ => return command.unknown

variable {engine}

/-- **Only `GET`, `SET` and `DEL` reach the store**: every other command leaves it as it was. -/
theorem execute_of_not_store {command : Command}
    (h : command.name ∉ ["GET", "SET", "DEL"]) (store : σ) :
    (execute engine command store).2 = store := by
  generalize hrun : execute engine command = run
  have hname : ∀ {name : String}, command.name = name → name ∉ ["GET", "SET", "DEL"] := by
    rintro name rfl
    exact h
  unfold execute at hrun
  split at hrun
  case h_2 hget => exact absurd (hname hget) (by decide)
  case h_3 hset => exact absurd (hname hset) (by decide)
  case h_4 hdel => exact absurd (hname hdel) (by decide)
  all_goals
    subst hrun
    rfl

end

end Lsmkv.Server
