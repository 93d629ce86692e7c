import Simloom.Theory.Dict
import Simloom.Theory.Transition

/-! `SimRedis`: the stand-in server, command by command.

A connection sends one command after another; inside `MULTI` all but four of them are
queued, and `EXEC` runs the queue in one go unless the version of a watched key has
changed. A command that raises ends its connection, and what it had done stays done.
The wire is left out: commands come as lists of arguments and replies go as values. -/
namespace Simloom.Services
open Theory

abbrev Bytes := List UInt8

abbrev Command := List Bytes

/-- A bytes literal. -/
def ascii (text : String) : Bytes := text.toList.map fun c => UInt8.ofNat c.toNat

/-- `bytes.upper`. -/
def upper (name : Bytes) : Bytes := name.map fun b => if 97 ≤ b ∧ b ≤ 122 then b - 32 else b

/-! ### Numbers as bytes -/

/-- Longer decimals are refused by `int` and `str`. -/
def maxStrDigits : Nat := 4300

def isSpace (b : UInt8) : Bool := b = 32 ∨ 9 ≤ b ∧ b ≤ 13

def strip (text : Bytes) : Bytes :=
  ((text.dropWhile isSpace).reverse.dropWhile isSpace).reverse

/-- Digits, with single underscores between them; `after` says that a digit came before. -/
def digits (after : Bool) : Bytes → Option (List Nat)
  | [] => if after then some [] else none
  | b :: rest =>
    if 48 ≤ b ∧ b ≤ 57 then (digits true rest).map fun ds => (b - 48).toNat :: ds
    else if b = 95 ∧ after then digits false rest
    else none

def natural (text : Bytes) : Option Nat :=
  (digits false text).bind fun ds =>
    if ds.length ≤ maxStrDigits then some (ds.foldl (fun n d => 10 * n + d) 0) else none

/-- `int(text)`, or `ValueError`. -/
def parseInt (text : Bytes) : Option Int :=
  match strip text with
  | 45 :: rest => (natural rest).map fun n => -(n : Int)
  | 43 :: rest => (natural rest).map Int.ofNat
  | rest => (natural rest).map Int.ofNat

/-- `str(value).encode()`, or `ValueError`. -/
def printInt (value : Int) : Option Bytes :=
  if (toString value.natAbs).length ≤ maxStrDigits then some (ascii (toString value)) else none

/-! ### Commands and replies -/

/-- What a name stands for. -/
inductive Verb where
  | hello
  | handshake
  | ping
  | set
  | get
  | del
  | exists
  /-- The `INCR` family: downwards or not, by an argument or by one. -/
  | count (down byArgument : Bool)
  | watch
  | unwatch
  | multi
  | discard
  | exec
  | unknown
deriving DecidableEq

def verb (name : Bytes) : Verb :=
  if name = ascii "HELLO" then .hello
  else if name ∈ [ascii "CLIENT", ascii "AUTH", ascii "COMMAND", ascii "CONFIG"] then .handshake
  else if name = ascii "PING" then .ping
  else if name = ascii "SET" then .set
  else if name = ascii "GET" then .get
  else if name = ascii "DEL" then .del
  else if name = ascii "EXISTS" then .exists
  else if name = ascii "INCR" then .count false false
  else if name = ascii "INCRBY" then .count false true
  else if name = ascii "DECR" then .count true false
  else if name = ascii "DECRBY" then .count true true
  else if name = ascii "WATCH" then .watch
  else if name = ascii "UNWATCH" then .unwatch
  else if name = ascii "MULTI" then .multi
  else if name = ascii "DISCARD" then .discard
  else if name = ascii "EXEC" then .exec
  else .unknown

/-- What is not queued inside `MULTI`. -/
def Verb.immediate : Verb → Bool
  | .exec | .discard | .multi | .watch => true
  | _ => false

inductive Reply where
  | simple (text : Bytes)
  | error (text : Bytes)
  | integer (value : Int)
  | bulk (data : Option Bytes)
  | array (items : Option (List Reply))

def Reply.ok : Reply := .simple (ascii "OK")

/-- The nil array. -/
def Reply.nil : Reply := .array none

/-- What Python raises on a malformed command. -/
inductive Fault where
  | indexError
  | valueError
deriving DecidableEq

/-! ### State -/

/-- What happened to keys, and which connections watched and let go: not the source's. -/
inductive Occurrence where
  | modified (key : Bytes)
  | watched (conn : Nat) (key : Bytes)
  | unwatched (conn : Nat)
deriving DecidableEq

/-- `history` is not the source's. -/
structure SimRedis where
  store : Dict Bytes Bytes
  version : Dict Bytes Nat
  history : List Occurrence

/-- A connection and its server; `id` is not the source's. -/
structure Connection where
  id : Nat
  watched : Dict Bytes Nat
  queue : Option (List Command)

structure Served where
  redis : SimRedis
  conn : Connection

namespace SimRedis

def new : SimRedis := ⟨.empty, .empty, []⟩

def versionOf (r : SimRedis) (key : Bytes) : Nat := (r.version.get? key).getD 0

def note (r : SimRedis) (o : Occurrence) : SimRedis := {r with history := r.history ++ [o]}

def bump (r : SimRedis) (key : Bytes) : SimRedis :=
  {r with version := r.version.set key (r.versionOf key + 1)}

/-- `self._store[key] = value`. -/
def put (r : SimRedis) (key value : Bytes) : SimRedis :=
  {r with store := r.store.set key value}.note (.modified key)

/-- `del self._store[key]`. -/
def remove (r : SimRedis) (key : Bytes) : SimRedis :=
  {r with store := r.store.pop key}.note (.modified key)

/-- `DEL`: the keys that are there are removed one after another, and counted. -/
def delete (r : SimRedis) : List Bytes → SimRedis × Nat
  | [] => (r, 0)
  | key :: rest =>
    if (r.store.get? key).isSome then
      let done := delete ((r.remove key).bump key) rest
      (done.1, done.2 + 1)
    else delete r rest

/-- What the `INCR` family makes of the store, or what it raises. -/
def counted (r : SimRedis) (down byArgument : Bool) (args : List Bytes) :
    Except Fault (Bytes × Int × Bytes) := do
  let step ←
    if byArgument then
      match args[1]? with
      | some text => (parseInt text).elim (.error .valueError) .ok
      | none => .error .indexError
    else .ok 1
  let step := if down then -step else step
  match args[0]? with
  | none => .error .indexError
  | some key =>
    match parseInt ((r.store.get? key).getD (ascii "0")) with
    | none => .error .valueError
    | some value =>
      match printInt (value + step) with
      | none => .error .valueError
      | some text => .ok (key, value + step, text)

end SimRedis

namespace Connection

def new (id : Nat) : Connection := ⟨id, .empty, none⟩

/-- Some watched key has another version now. -/
def stale (c : Connection) (r : SimRedis) : Bool :=
  c.watched.entries.any fun entry => r.versionOf entry.1 ≠ entry.2

end Connection

namespace Served

/-- What a command leaves, and what it replies or raises. -/
abbrev Outcome := Served × Except Fault Reply

/-- One key of a `WATCH`. -/
def watchKey (s : Served) (key : Bytes) : Served :=
  ⟨s.redis.note (.watched s.conn.id key),
    {s.conn with watched := s.conn.watched.set key (s.redis.versionOf key)}⟩

/-- The watched keys are let go. -/
def unwatch (s : Served) : Served :=
  ⟨s.redis.note (.unwatched s.conn.id), {s.conn with watched := .empty}⟩

/-- The answer to `HELLO`, in the second version of the protocol. -/
def helloReply : Reply := .array (some [
  .bulk (some (ascii "server")), .bulk (some (ascii "redis")),
  .bulk (some (ascii "version")), .bulk (some (ascii "7.4.0")),
  .bulk (some (ascii "proto")), .integer 2,
  .bulk (some (ascii "id")), .integer 1,
  .bulk (some (ascii "mode")), .bulk (some (ascii "standalone")),
  .bulk (some (ascii "role")), .bulk (some (ascii "master")),
  .bulk (some (ascii "modules")), .array (some [])])

def withRedis (s : Served) (r : SimRedis) : Served := {s with redis := r}

def withQueue (s : Served) (queue : Option (List Command)) : Served :=
  {s with conn := {s.conn with queue := queue}}

/-- `_dispatch` of a name with its arguments; what `EXEC` does is given. -/
def dispatchWith (exec : Served → Outcome) (s : Served) (name : Bytes) (args : List Bytes) :
    Outcome :=
  match verb name with
  | .hello => (s, .ok helloReply)
  | .handshake => (s, .ok .ok)
  | .ping => (s, .ok (args.head?.elim (.simple (ascii "PONG")) fun data => .bulk (some data)))
  | .set =>
    match args with
    | key :: value :: _ => (s.withRedis ((s.redis.put key value).bump key), .ok .ok)
    | _ => (s, .error .indexError)
  | .get =>
    match args with
    | key :: _ => (s, .ok (.bulk (s.redis.store.get? key)))
    | [] => (s, .error .indexError)
  | .del =>
    let done := s.redis.delete args
    (s.withRedis done.1, .ok (.integer done.2))
  | .exists => (s, .ok (.integer (args.countP fun key => (s.redis.store.get? key).isSome)))
  | .count down byArgument =>
    match s.redis.counted down byArgument args with
    | .ok (key, value, text) =>
      (s.withRedis ((s.redis.put key text).bump key), .ok (.integer value))
    | .error e => (s, .error e)
  | .watch => (args.foldl watchKey s, .ok .ok)
  | .unwatch => (s.unwatch, .ok .ok)
  | .multi => (s.withQueue (some []), .ok .ok)
  | .discard => ((s.withQueue none).unwatch, .ok .ok)
  | .exec => exec s
  | .unknown => (s, .ok (.error (ascii "ERR unknown command '" ++ name ++ ascii "'")))

/-- `_exec` where no transaction is open, as when a queue is run. -/
def noTransaction (s : Served) : Outcome := (s, .ok (.error (ascii "ERR EXEC without MULTI")))

/-- A command that was queued is dispatched. -/
def redispatch (s : Served) : Command → Outcome
  | [] => (s, .error .indexError)
  | name :: args => s.dispatchWith noTransaction (upper name) args

/-- The queue is run; a command that raises ends it. -/
def runQueue (s : Served) : List Command → Served × Except Fault (List Reply)
  | [] => (s, .ok [])
  | command :: rest =>
    match s.redispatch command with
    | (s, .error e) => (s, .error e)
    | (s, .ok reply) =>
      match runQueue s rest with
      | (s, .error e) => (s, .error e)
      | (s, .ok replies) => (s, .ok (reply :: replies))

/-- `_exec`. -/
def exec (s : Served) : Outcome :=
  match s.conn.queue with
  | none => s.noTransaction
  | some queued =>
    let letGo := (s.withQueue none).unwatch
    if s.conn.stale s.redis then (letGo, .ok .nil)
    else match letGo.runQueue queued with
      | (s, .error e) => (s, .error e)
      | (s, .ok replies) => (s, .ok (.array (some replies)))

def dispatch (s : Served) (name : Bytes) (args : List Bytes) : Outcome :=
  s.dispatchWith exec name args

/-- One turn of `handle`: the command is queued or dispatched. -/
def handle (s : Served) : Command → Outcome
  | [] => (s, .error .indexError)
  | name :: args =>
    match s.conn.queue with
    | some queue =>
      if (verb (upper name)).immediate then s.dispatch (upper name) args
      else (s.withQueue (some (queue ++ [name :: args])), .ok (.simple (ascii "QUEUED")))
    | none => s.dispatch (upper name) args

end Served

/-! ### Many connections -/

/-- The server with its connections; those that have ended take no more commands. -/
structure Server where
  redis : SimRedis
  conns : Nat → Connection
  ended : List Nat

namespace Server

def start : Server := ⟨.new, .new, []⟩

inductive Event where
  | receive (c : Nat) (command : Command)
  /-- End of the stream, or a reset. -/
  | hangUp (c : Nat)

def served (s : Server) (c : Nat) : Served := ⟨s.redis, s.conns c⟩

/-- What a connection would be answered now. -/
def outcome (s : Server) (c : Nat) (command : Command) : Except Fault Reply :=
  ((s.served c).handle command).2

/-- The server after a command. -/
def after (s : Server) (c : Nat) (command : Command) : Server :=
  let done := (s.served c).handle command
  ⟨done.1.redis, Function.update s.conns c done.1.conn,
    if done.2.isOk then s.ended else c :: s.ended⟩

/-- A command is served without interruption: nothing in `_dispatch` awaits. -/
def step (s : Server) : Event → Option Server
  | .receive c command => if c ∈ s.ended then none else some (s.after c command)
  | .hangUp c => some {s with ended := c :: s.ended}

end Server

end Simloom.Services
