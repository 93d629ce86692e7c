import Simloom.Loop.Agenda

/-! Hosts and what they own.

A host is a container of tasks with a power switch. What runs in the simulation runs in a
context, whose `current_host` is a host or the root world; that decides who owns the tasks,
listeners, transports and datagram endpoints that are made. A crash takes what the host owns at
that moment. The disks, the data on the wires and the names of things are not modelled here. -/
namespace Simloom

abbrev HostId := Nat

/-- A host, or the root world. -/
abbrev Owner := Option HostId

abbrev FactoryId := Nat

/-- An IP and a port. -/
abbrev Address := Nat × Nat

abbrev SockId := Nat

abbrev ServerId := Nat

abbrev TransportId := Nat

abbrev DatagramId := Nat

namespace World

/-- `host` is the `current_host` of the task's context. `creator` is not the source's: the one
of the code that created it. -/
structure Task where
  host : Owner
  creator : Owner
  done : Bool

/-- An entry is a factory, or `none` for a raw coroutine. -/
structure Host where
  crashed : Bool
  generation : Nat
  entries : List (Option FactoryId)
  tasks : List TaskId

/-- `listed` says that the server is in `_listeners`, under its address. -/
structure Server where
  address : Address
  owner : Owner
  listed : Bool
  closed : Bool

/-- A transport is in `_live_transports` until it is closed. `resets` says that a
`_reset_by_peer` is queued, `loses` that `_force_close` has queued a `connection_lost`. -/
structure Transport where
  owner : Owner
  peer : TransportId
  closing : Bool
  closed : Bool
  resets : Bool
  loses : Bool

/-- An endpoint is in `_datagram_endpoints` until it is closed. -/
structure Datagram where
  address : Address
  owner : Owner
  closing : Bool
  closed : Bool

/-- A connect that has found a listener: by `create_connection`, or by `sock_connect` for a
socket. -/
structure Dial where
  address : Address
  sock : Option SockId
  owner : Owner
  server : ServerId
deriving DecidableEq

/-- What is under way, innermost first: code in a context, the step of a task perhaps;
`Host.spawn` calling a factory; `Host.restart` with the factories that are left; a connect
waiting for a partition to heal; `connected_pair` calling the two protocol factories, or about
to call the client's `connection_made`. -/
inductive Frame where
  | code (host : Owner) (task : Option TaskId)
  | spawning (host : HostId) (factory : FactoryId)
  | restarting (host : HostId) (rest : List FactoryId)
  | dialing (dial : Dial)
  | pairing (server : ServerId) (client : Owner)
  | greeting (client : TransportId)
deriving DecidableEq

end World

open World

/-- `crashed` is the loop's `_crashed_ids`, `hand` the task whose handle a step has picked.
`waiting` is the connects that wait for a partition to heal, each in its task. -/
structure World where
  hosts : HostId → Host
  tasks : List Task
  crashed : List TaskId
  servers : List Server
  transports : List Transport
  datagrams : List World.Datagram
  pendingSocks : List (SockId × ServerId × Owner)
  blocked : List (Owner × Owner)
  waiting : List (TaskId × Dial)
  hand : Option TaskId
  stack : List Frame

namespace World

def start : World :=
  ⟨fun _ => ⟨false, 0, [], []⟩, [], [], [], [], [], [], [], [], none, []⟩

/-- Powered off. -/
def isOff (w : World) (owner : Owner) : Bool := owner.any fun host => (w.hosts host).crashed

def setHost (w : World) (host : HostId) (h : Host) : World :=
  {w with hosts := Function.update w.hosts host h}

@[simp] theorem setHost_hosts (w : World) (host : HostId) (h : Host) :
    (w.setHost host h).hosts = Function.update w.hosts host h := rfl

/-! ### Tasks -/

/-- `_register`. -/
def register (w : World) (host : HostId) (id : TaskId) : World :=
  if id ∈ (w.hosts host).tasks then w
  else w.setHost host {w.hosts host with tasks := (w.hosts host).tasks ++ [id]}

/-- Register with the host of the running code. -/
def registerOwner (w : World) (owner : Owner) (id : TaskId) : World :=
  match owner with
  | none => w
  | some host => w.register host id

/-- `SimLoop.create_task`, by code of `creator`, of a task that runs on `host`. -/
def createTask (w : World) (creator host : Owner) : World :=
  registerOwner {w with tasks := w.tasks ++ [⟨host, creator, false⟩]} creator w.tasks.length

/-- `Host._spawn`: the loop has registered the task with its creator's host, now the host
itself does. -/
def spawnTask (w : World) (creator : Owner) (host : HostId) : World :=
  (w.createTask creator (some host)).register host w.tasks.length

def isDone (w : World) (id : TaskId) : Bool := (w.tasks[id]?).all Task.done

/-- `_live_tasks`. -/
def liveTasks (w : World) (host : HostId) : List TaskId :=
  (w.hosts host).tasks.filter fun id => !w.isDone id

/-- `SimLoop._crash_tasks`. -/
def crashTasks (w : World) (ids : List TaskId) : World :=
  {w with crashed := (ids.filter fun id => !w.isDone id).foldl Agenda.enter w.crashed}

/-! ### The network -/

/-- The server that listens at an address. -/
def listener (w : World) (address : Address) : Option ServerId :=
  w.servers.findIdx? fun s => s.listed && s.address == address

/-- `SimServer.close`: what is listed under its address goes. -/
def closeServer (w : World) (id : ServerId) : World :=
  match w.servers[id]? with
  | none => w
  | some server =>
    {w with servers := (w.servers.modify id fun s => {s with closed := true}).map fun s =>
      if s.address = server.address then {s with listed := false} else s}

/-- `SimTransport._drop_on_crash`. -/
def dropTransport (w : World) (id : TransportId) : World :=
  match w.transports[id]? with
  | none => w
  | some transport =>
    let dropped := w.transports.modify id fun t => {t with closing := true, closed := true}
    {w with transports :=
      dropped.modify transport.peer fun t => if t.closed then t else {t with resets := true}}

/-- `SimDatagramTransport._drop_on_crash`. -/
def dropDatagram (w : World) (id : DatagramId) : World :=
  {w with datagrams := w.datagrams.modify id fun d => {d with closing := true, closed := true}}

/-- Indices of what satisfies a test. -/
def indices {α : Type} (p : α → Bool) (l : List α) : List Nat :=
  (List.range l.length).filter fun i => (l[i]?).any p

/-! ### The power switch -/

/-- The tasks of a host stop. -/
def stopTasks (w : World) (host : HostId) : World :=
  let w := w.setHost host {w.hosts host with crashed := true}
  let w := w.crashTasks (w.liveTasks host)
  w.setHost host {w.hosts host with tasks := []}

def dropTransports (w : World) (host : HostId) : World :=
  (indices (fun t => !t.closed && t.owner == some host) w.transports).foldl dropTransport w

def dropDatagrams (w : World) (host : HostId) : World :=
  (indices (fun d => !d.closed && d.owner == some host) w.datagrams).foldl dropDatagram w

def closeServers (w : World) (host : HostId) : World :=
  (indices (fun s => s.listed && s.owner == some host) w.servers).foldl closeServer w

/-- `Host.crash`, but for the disk. -/
def crash (w : World) (host : HostId) : World :=
  if (w.hosts host).crashed then w
  else (((w.stopTasks host).dropTransports host).dropDatagrams host).closeServers host

end World

end Simloom
