import Simloom.Net.WellFormed
import Simloom.Net.Life

/-! Transports from `connected_pair` to the closed loop.

`connected_pair` calls the server's `connection_made` and then the client's. In either the
program may do what it can do anywhere, connect another pair included, but the loop and the
pump wait until it returns. After the loop is closed nothing that it was asked to call is
called any more and nothing new can be scheduled; `close`, `_force_close` and a crash then
mark an endpoint dead. -/
namespace Simloom
open Theory

/-- A call of `connected_pair`: its client, the client's protocol, and whether that has been
told. -/
structure Pairing where
  client : EndId
  protocol : Protocol
  told : Bool
deriving DecidableEq

/-- `pairing` are the calls of `connected_pair` under way, the innermost first. -/
structure Lifecycle where
  network : SimNetwork
  pairing : List Pairing
  loopClosed : Bool

/-- What the program does, not the loop or the pump. -/
def SimNetwork.Event.ofProgram : SimNetwork.Event → Bool
  | .tick _ | .ready _ | .timer _ _ | .advance | .returned | .eofReturned _ | .bufferReturned _
  | .raised => false
  | _ => true

namespace SimNetwork

/-- `connected_pair`, up to the call of the server's `connection_made`. -/
def pairUp (n : SimNetwork) (clientOwner serverOwner : String) (client server : Protocol) :
    SimNetwork :=
  let c : EndId := ⟨n.pairs, false⟩
  let s : EndId := ⟨n.pairs, true⟩
  let n := {n with pairs := n.pairs + 1, live := n.live ++ [c, s]}
  let n := n.modify c fun _ => .new clientOwner client
  let n := n.modify s fun _ => .new serverOwner server
  n.modify s fun t => t.call server .connectionMade

def connectionMade (n : SimNetwork) (e : EndId) (p : Protocol) : SimNetwork :=
  n.modify e fun t => t.call p .connectionMade

/-! ### After the loop is closed -/

/-- Nothing is scheduled. -/
def refuse (n : SimNetwork) : SimNetwork := {n with ready := [], timers := []}

/-- `close` by a destructor. -/
def closeDead (n : SimNetwork) (e : EndId) : SimNetwork :=
  if (n.transport e).closing then n else n.kill e

def forceCloseDead (n : SimNetwork) (e : EndId) : SimNetwork :=
  if (n.transport e).closed then n else n.kill e

/-- The drops of a crash, up to the first reset that the loop refuses. -/
def dropDead (host : String) : List EndId → SimNetwork → SimNetwork
  | [], n => n
  | e :: rest, n =>
    if (n.transport e).owner = host then
      if ((n.kill e).transport e.peer).closed then dropDead host rest (n.kill e) else n.kill e
    else dropDead host rest n

/-- A release, up to the first arrival that the loop refuses. -/
def releaseDead : List EndId → SimNetwork → SimNetwork
  | [], n => n
  | e :: rest, n =>
    if (n.transport e).closed ∨ n.isBlockedFrom e then releaseDead rest n
    else
      match (n.transport e).held with
      | [] => releaseDead rest n
      | item :: held => ((n.modify e fun t => {t with held := held}).transmit e item).refuse

/-- What the program can still do. -/
def stepDead (n : SimNetwork) : Event → Option SimNetwork
  | .close e => n.callOn e (n.closeDead e)
  | .forceClose e _ => n.callOn e (n.forceCloseDead e)
  | .crash host => n.call (dropDead host n.live n)
  | .unblock src dst =>
    n.call (releaseDead n.live {n with blocked := n.blocked.filter (· ≠ (src, dst))})
  | .heal => n.call (releaseDead n.live {n with blocked := []})
  | ev => if ev.ofProgram then (n.step ev).map refuse else none

end SimNetwork

namespace Lifecycle

def start (draws : Nat → Fin 64 × Fin 100) : Lifecycle := ⟨.start draws, [], false⟩

/-- `made` is the return of the innermost `connection_made`. -/
inductive Event where
  | connect (clientOwner serverOwner : String) (client server : Protocol)
  | made
  | network (ev : SimNetwork.Event)
  | closeLoop

/-- A move in the network; `connected_pair` is not made in one. -/
def move (l : Lifecycle) : SimNetwork.Event → Option SimNetwork
  | .connect _ _ _ _ => none
  | ev =>
    if l.loopClosed then l.network.stepDead ev
    else if ev.ofProgram ∨ l.pairing = [] then l.network.step ev
    else none

def step (l : Lifecycle) : Event → Option Lifecycle
  | .connect clientOwner serverOwner client server =>
    if l.network.activity.inProgram then
      some {l with
        network := l.network.pairUp clientOwner serverOwner client server
        pairing := ⟨⟨l.network.pairs, false⟩, client, false⟩ :: l.pairing}
    else none
  | .made =>
    match l.pairing with
    | [] => none
    | p :: rest =>
      if p.told then some {l with pairing := rest}
      else some {l with
        network := l.network.connectionMade p.client p.protocol
        pairing := {p with told := true} :: rest}
  | .network ev => (l.move ev).map fun n => {l with network := n}
  | .closeLoop =>
    if l.network.activity = .idle ∧ l.loopClosed = false then
      some {l with network := l.network.refuse, loopClosed := true}
    else none

end Lifecycle

end Simloom
