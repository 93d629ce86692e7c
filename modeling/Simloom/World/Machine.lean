import Simloom.World.Host

/-! The world as a transition system.

Code runs in steps of tasks and in plain callbacks, one at a time, and acts on the world. Some
acts call other code before they are done: factories of tasks and of protocols, and the
protocols' `connection_made`. A `Frame` stands for what is left to do then, so that what the
called code does, a crash for one, comes in between. -/
namespace Simloom
open Theory
namespace World

/-- What running code does to the world. `spawn` is given a factory, or `none` for a raw
coroutine; `dial` is `create_connection`, or `sock_connect` of a socket, and `connectSock`
is `create_connection(sock=...)`. -/
inductive Act where
  | createTask
  | spawn (host : HostId) (factory : Option FactoryId)
  | crash (host : HostId)
  | restart (host : HostId)
  | listen (address : Address)
  | closeServer (id : ServerId)
  | dial (address : Address) (sock : Option SockId)
  | connectSock (sock : SockId)
  | openDatagram (address : Address)
  | closeDatagram (id : DatagramId)
  | closeTransport (id : TransportId)
  | forceClose (id : TransportId)
  | resetConnections (a b : Owner)
  | block (src dst : Owner)
  | unblock (src dst : Owner)
  | heal

/-- What the network has queued on the loop: data for a protocol, the end of a close, a reset,
or the `connection_lost` of a forced close. -/
inductive Callback where
  | pump (id : TransportId)
  | finalize (id : TransportId)
  | reset (id : TransportId)
  | lost (id : TransportId)
  | receive (id : DatagramId)
  | shut (id : DatagramId)

/-- A step picks a task's handle, may collect garbage, and runs the task. Code of the root
world and callbacks run in between. The rest is how code goes on: it acts, returns (and its task
may be done), or raises; and what an act does once the code it called has returned. -/
inductive Event where
  | pick (id : TaskId)
  | collect
  | run
  | root
  | callback (callback : Callback)
  | act (act : Act)
  | leave (finished : Bool)
  | raise
  | spawned
  | respawn
  | redial
  | paired
  | greet

variable (w : World)

def push (frame : Frame) : World := {w with stack := frame :: w.stack}

/-! ### The running code -/

/-- The innermost context. -/
def context : List Frame → Option Owner
  | [] => none
  | .code host _ :: _ => some host
  | _ :: rest => context rest

/-- The `current_host` of the running code, if code is running. -/
def running : Option Owner :=
  match w.stack with
  | .code host _ :: _ => some host
  | .spawning _ _ :: rest => context rest
  | .pairing _ _ :: rest => context rest
  | _ => none

/-! ### Connects -/

def ownerOf (id : ServerId) : Owner := (w.servers[id]?).bind Server.owner

/-- Either direction is blocked. -/
def isCut (a b : Owner) : Bool := (a, b) ∈ w.blocked || (b, a) ∈ w.blocked

/-- Stash the pairing of a socket, or go on to pair. -/
def reach (dial : Dial) (id : ServerId) : World :=
  match dial.sock with
  | some sock =>
    {w with pendingSocks := (sock, id, dial.owner) :: w.pendingSocks.filter fun e => e.1 ≠ sock}
  | none => w.push (.pairing id dial.owner)

/-- `_reach_listener`, once the link is not blocked: the listener is looked up again. -/
def reachListener (dial : Dial) : World :=
  match w.listener dial.address with
  | none => w
  | some id => if (w.servers[id]?).any (!·.closed) then w.reach dial id else w

/-- `connected_pair`, once it has its protocols: the transports are live, and the server's
`connection_made` is called. -/
def pair (id : ServerId) (client : Owner) (rest : List Frame) : World :=
  {w with
    transports := w.transports ++ [⟨client, w.transports.length + 1, false, false, false, false⟩,
      ⟨w.ownerOf id, w.transports.length, false, false, false, false⟩]
    stack := .code (w.ownerOf id) none :: .greeting w.transports.length :: rest}

/-! ### Acts -/

def closeTransport (id : TransportId) : World :=
  {w with transports := w.transports.modify id fun t => {t with closing := true}}

/-- `_force_close`. -/
def forceClose (id : TransportId) : World :=
  {w with transports := w.transports.modify id fun t =>
    if t.closed then t else {t with closing := true, closed := true, loses := true}}

/-- `reset_connections`. -/
def resetConnections (a b : Owner) : World :=
  {w with transports := w.transports.map fun t =>
    let peer := (w.transports[t.peer]?).bind Transport.owner
    if !t.closed && (t.owner == a && peer == b || t.owner == b && peer == a)
    then {t with resets := true} else t}

/-- `Host.restart`, up to its loop. -/
def restart (host : HostId) : World :=
  let h := w.hosts host
  if h.crashed && h.entries.all Option.isSome then
    (w.setHost host {h with crashed := false, generation := h.generation + 1, entries := []}).push
      (.restarting host (h.entries.filterMap id))
  else w

/-- The end of `Host.spawn`. -/
def enlist (host : HostId) (entry : Option FactoryId) : World :=
  w.setHost host {w.hosts host with entries := (w.hosts host).entries ++ [entry]}

/-- An act of code in the context of `owner`; what is refused leaves the world as it is. -/
def act (owner : Owner) : Act → Option World
  | .createTask => some (w.createTask owner owner)
  | .spawn host factory =>
    if (w.hosts host).crashed then some w
    else match factory with
      | some factory => some (w.push (.spawning host factory))
      | none => some ((w.enlist host none).spawnTask owner host)
  | .crash host => some (w.crash host)
  | .restart host => some (w.restart host)
  | .listen address =>
    if w.servers.any fun s => s.listed && s.address == address then some w
    else some {w with servers := w.servers ++ [⟨address, owner, true, false⟩]}
  | .closeServer id => some (w.closeServer id)
  | .dial address sock =>
    match w.stack with
    | [.code _ (some task)] =>
      match w.listener address with
      | none => some w
      | some id =>
        if w.isCut owner (w.ownerOf id) then
          some {w with stack := [], waiting := (task, ⟨address, sock, owner, id⟩) :: w.waiting}
        else some (w.reachListener ⟨address, sock, owner, id⟩)
    | _ => none
  | .connectSock sock =>
    match w.pendingSocks.find? fun e => e.1 == sock with
    | none => some w
    | some (_, id, client) =>
      some (push {w with pendingSocks := w.pendingSocks.filter fun e => e.1 ≠ sock}
        (.pairing id client))
  | .openDatagram address =>
    if w.datagrams.any fun d => !d.closed && d.address == address then some w
    else some (push {w with datagrams := w.datagrams ++ [⟨address, owner, false, false⟩]}
      (.code owner none))
  | .closeDatagram id =>
    some {w with datagrams := w.datagrams.modify id fun d => {d with closing := true}}
  | .closeTransport id => some (w.closeTransport id)
  | .forceClose id => some (w.forceClose id)
  | .resetConnections a b => some (w.resetConnections a b)
  | .block src dst => some {w with blocked := (src, dst) :: w.blocked}
  | .unblock src dst => some {w with blocked := w.blocked.filter (· ≠ (src, dst))}
  | .heal => some {w with blocked := []}

/-! ### Callbacks -/

/-- The transport after the callback, which runs code of its protocol. -/
def Callback.onTransport : Callback → Option (TransportId × (Transport → Option Transport))
  | .pump id => some (id, fun t => if t.closed then none else some t)
  | .finalize id =>
    some (id, fun t => if t.closing && !t.closed then some {t with closed := true} else none)
  | .reset id => some (id, fun t =>
    if t.resets && !t.closed then some {t with closing := true, closed := true} else none)
  | .lost id => some (id, fun t => if t.loses then some {t with loses := false} else none)
  | _ => none

def Callback.onDatagram : Callback → Option (DatagramId × (Datagram → Option Datagram))
  | .receive id => some (id, fun d => if d.closed then none else some d)
  | .shut id =>
    some (id, fun d => if d.closing && !d.closed then some {d with closed := true} else none)
  | _ => none

/-- Run a callback of the network in its owner's context. -/
def callback (callback : Callback) : Option World :=
  match callback.onTransport, callback.onDatagram with
  | some (id, f), _ => do
    let t ← w.transports[id]?
    let t' ← f t
    some (push {w with transports := w.transports.set id t'} (.code t.owner none))
  | none, some (id, f) => do
    let d ← w.datagrams[id]?
    let d' ← f d
    some (push {w with datagrams := w.datagrams.set id d'} (.code d.owner none))
  | none, none => none

/-! ### The transition system -/

/-- Run the picked task, which goes on with the connect that it waits in. -/
def runTask (id : TaskId) (task : Task) : World :=
  let frame : Frame := .code task.host (some id)
  match w.waiting.find? fun e => e.1 == id with
  | none => {w with hand := none, stack := [frame]}
  | some (_, dial) =>
    {w with
      hand := none
      waiting := w.waiting.filter fun e => e.1 ≠ id
      stack := [.dialing dial, frame]}

/-- What raising leaves: the act that called the code that raised is over too. -/
def unwind : List Frame → Option (List Frame)
  | .spawning _ _ :: .restarting _ _ :: rest => some rest
  | .spawning _ _ :: rest => some rest
  | .dialing _ :: rest => some rest
  | .pairing _ _ :: rest => some rest
  | .code _ none :: .greeting _ :: rest => some rest
  | _ => none

def step : Event → Option World
  | .pick id =>
    if w.stack.isEmpty && w.hand.isNone && (w.tasks[id]?).any (!·.done) && !w.crashed.contains id
    then some {w with hand := some id} else none
  | .collect => if w.stack.isEmpty then some (w.push (.code none none)) else none
  | .run =>
    match w.stack, w.hand with
    | [], some id => (w.tasks[id]?).map (w.runTask id)
    | _, _ => none
  | .root => if w.stack.isEmpty && w.hand.isNone then some (w.push (.code none none)) else none
  | .callback callback => if w.stack.isEmpty && w.hand.isNone then w.callback callback else none
  | .act act => w.running.bind fun owner => w.act owner act
  | .leave finished =>
    match w.stack with
    | .code _ (some id) :: rest =>
      some {w with stack := rest, tasks := w.tasks.modify id fun t => {t with done := t.done || finished}}
    | .code _ none :: rest => some {w with stack := rest}
    | _ => none
  | .raise => (unwind w.stack).map fun stack => {w with stack := stack}
  | .spawned =>
    match w.stack with
    | .spawning host factory :: rest =>
      (context rest).map fun owner =>
        spawnTask (enlist {w with stack := rest} host (some factory)) owner host
    | _ => none
  | .respawn =>
    match w.stack with
    | .restarting _ [] :: rest => some {w with stack := rest}
    | .restarting host (factory :: more) :: rest =>
      if (w.hosts host).crashed then some {w with stack := rest}
      else some {w with stack := .spawning host factory :: .restarting host more :: rest}
    | _ => none
  | .redial =>
    match w.stack with
    | .dialing dial :: .code host (some task) :: rest =>
      if w.isCut dial.owner (w.ownerOf dial.server) then
        some {w with stack := rest, waiting := (task, dial) :: w.waiting}
      else some (reachListener {w with stack := .code host (some task) :: rest} dial)
    | _ => none
  | .paired =>
    match w.stack with
    | .pairing id client :: rest => some (w.pair id client rest)
    | _ => none
  | .greet =>
    match w.stack with
    | .greeting client :: rest =>
      (w.transports[client]?).map fun t => {w with stack := .code t.owner none :: rest}
    | _ => none

end World

end Simloom
