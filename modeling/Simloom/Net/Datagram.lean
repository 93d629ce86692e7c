import Simloom.Net.Transport
import Simloom.Theory.Rounding

/-! Datagrams: `SimDatagramTransport` and the datagram half of `SimNetwork`.

A datagram is offered to the network when its destination is bound and open and the
link is not blocked. The network may then lose it, send it twice or hold it back; what
it lets pass arrives no earlier than `_min_delay` after the datagram before it in the
flow, and the loop may serve arrivals that are due at one instant in any order. Each
call of `sendto` comes with the draws that it may ask for. Times are computed in floats: every
sum, difference, product and quotient is rounded. -/
namespace Simloom
open Theory

abbrev Addr := String × Nat

abbrev EndpointId := Nat

/-- A datagram. `number` and `sender` are not the source's: its place among what was
offered, and the endpoint that sent it. -/
structure Datagram where
  number : Nat
  sender : EndpointId
  source : Addr
  dest : EndpointId
  data : List UInt8
deriving DecidableEq

/-- What is called on the protocol of a datagram endpoint. -/
inductive DatagramCall where
  | connectionMade
  | datagramReceived (data : List UInt8) (source : Addr)
  | connectionLost
deriving DecidableEq

/-- An endpoint. The last two fields are not the source's: the calls on its protocols,
and the datagrams that they received. -/
structure SimDatagramTransport where
  localAddr : Addr
  remoteAddr : Option Addr
  owner : String
  protocol : Protocol
  closing : Bool
  closed : Bool
  calls : List (Protocol × DatagramCall)
  received : List Datagram

def SimDatagramTransport.new (localAddr : Addr) (remoteAddr : Option Addr) (owner : String)
    (protocol : Protocol) : SimDatagramTransport :=
  ⟨localAddr, remoteAddr, owner, protocol, false, false, [], []⟩

/-- Note a call. -/
def SimDatagramTransport.call (t : SimDatagramTransport) (c : DatagramCall) :
    SimDatagramTransport := {t with calls := t.calls ++ [(t.protocol, c)]}

/-- The chances of the three faults, in percent. -/
structure DatagramFaults where
  loss : Nat
  duplication : Nat
  reorder : Nat

/-- The setters of the chances. -/
inductive FaultChange where
  | loss (percent : Int)
  | duplication (percent : Int)
  | reorder (percent : Int)

def DatagramFaults.change (f : DatagramFaults) : FaultChange → DatagramFaults
  | .loss percent => if validPercent percent then {f with loss := percent.toNat} else f
  | .duplication percent => if validPercent percent then {f with duplication := percent.toNat} else f
  | .reorder percent => if validPercent percent then {f with reorder := percent.toNat} else f

structure DatagramCounters where
  bytesSent : Nat
  chunksSent : Nat
  dropped : Nat
  duplicated : Nat
  reordered : Nat

/-- What the tape answers to one call of `sendto`: loss and duplication, and for each copy
its delay and whether it is held back. What is not asked for is not looked at. -/
structure DatagramDraws where
  loss : Fin 100
  duplication : Fin 100
  first : Fin 64 × Fin 100
  second : Fin 64 × Fin 100

/-- `bound` is `_datagram_endpoints` and `front` is `_udp_arrival`. `ready` holds the
scheduled `_finalize`, `timers` the scheduled deliveries. `rounding` is that of the floats, and
`offered` is not the source's. -/
structure DatagramNetwork where
  rounding : Rounding
  endpoint : EndpointId → SimDatagramTransport
  made : Nat
  bound : Dict Addr EndpointId
  front : Dict (Addr × Addr) ℚ
  faults : DatagramFaults
  shaping : Shaping
  blocked : List (String × String)
  counters : DatagramCounters
  now : ℚ
  ready : List EndpointId
  timers : List (ℚ × Datagram)
  loopClosed : Bool
  offered : List Datagram

namespace DatagramNetwork

def start (rounding : Rounding) : DatagramNetwork where
  rounding := rounding
  endpoint := fun _ => .new ("", 0) none rootWorld ⟨0, false⟩
  made := 0
  bound := .empty
  front := .empty
  faults := ⟨0, 0, 0⟩
  shaping := {Shaping.default with
    latency := (rounding.round (1 / 2000), rounding.round (1 / 50))}
  blocked := []
  counters := ⟨0, 0, 0, 0, 0⟩
  now := 0
  ready := []
  timers := []
  loopClosed := false
  offered := []

def modify (n : DatagramNetwork) (e : EndpointId)
    (f : SimDatagramTransport → SimDatagramTransport) : DatagramNetwork :=
  {n with endpoint := Function.update n.endpoint e (f (n.endpoint e))}

/-- `_forget_datagram`. -/
def forget (n : DatagramNetwork) (e : EndpointId) : DatagramNetwork :=
  match n.bound.entries.find? fun entry => entry.2 = e with
  | some entry => {n with bound := n.bound.pop entry.1}
  | none => n

/-! ### Sending -/

def count (n : DatagramNetwork) (f : DatagramCounters → DatagramCounters) : DatagramNetwork :=
  {n with counters := f n.counters}

/-- `_draw_udp_delay`. -/
def delay (n : DatagramNetwork) (src dst : String) (step : Fin 64) : ℚ :=
  let range := n.shaping.effectiveLatency src dst
  n.rounding.add range.1
    (n.rounding.mul (n.rounding.sub range.2 range.1) (n.rounding.div step.val 63))

/-- Schedule the copies of a datagram, from one place to another, behind the flow's last
arrival; the last arrival then. A copy that is held back does not advance it. -/
def launch (g : Datagram) (src dst : String) :
    List (Fin 64 × Fin 100) → ℚ → DatagramNetwork → DatagramNetwork × ℚ
  | [], last, n => (n, last)
  | (step, reorder) :: rest, last, n =>
    let arrival := n.rounding.add n.now (n.delay src dst step)
    if reorder.val < n.faults.reorder then
      let arrival := n.rounding.add (max arrival last) (n.rounding.mul 5 n.shaping.latency.2)
      launch g src dst rest last
        ({n with timers := n.timers ++ [(arrival, g)]}.count fun c =>
          {c with reordered := c.reordered + 1})
    else
      let arrival := max arrival (n.rounding.add last n.shaping.latency.1)
      launch g src dst rest arrival {n with timers := n.timers ++ [(arrival, g)]}

/-- What is offered is lost, or goes on its way once or twice. -/
def carry (n : DatagramNetwork) (g : Datagram) (dst : Addr) (draws : DatagramDraws) :
    DatagramNetwork :=
  if draws.loss.val < n.faults.loss then n.count fun c => {c with dropped := c.dropped + 1}
  else
    let twice := draws.duplication.val < n.faults.duplication
    let n := if twice then n.count fun c => {c with duplicated := c.duplicated + 1} else n
    let copies := if twice then [draws.first, draws.second] else [draws.first]
    let flow := (g.source, dst)
    let launched := launch g (n.endpoint g.sender).owner (n.endpoint g.dest).owner copies
      ((n.front.get? flow).getD 0) n
    {launched.1 with front := launched.1.front.set flow launched.2}

/-- The datagrams from one place to another are dropped. -/
def isBlocked (n : DatagramNetwork) (src dst : EndpointId) : Bool :=
  n.blocked.contains ((n.endpoint src).owner, (n.endpoint dst).owner)

/-- `_route_datagram`. -/
def routeDatagram (n : DatagramNetwork) (source : EndpointId) (dst : Addr) (data : List UInt8)
    (draws : DatagramDraws) : DatagramNetwork :=
  let n := n.count fun c =>
    {c with bytesSent := c.bytesSent + data.length, chunksSent := c.chunksSent + 1}
  match n.bound.get? dst with
  | none => n
  | some dest =>
    if (n.endpoint dest).closed ∨ n.isBlocked source dest then n
    else
      let g : Datagram := ⟨n.offered.length, source, (n.endpoint source).localAddr, dest, data⟩
      {n with offered := n.offered ++ [g]}.carry g dst draws

/-- `sendto`; without a destination it raises. -/
def sendto (n : DatagramNetwork) (e : EndpointId) (data : List UInt8) (addr : Option Addr)
    (draws : DatagramDraws) : DatagramNetwork :=
  if (n.endpoint e).closing then n
  else match addr.or (n.endpoint e).remoteAddr with
    | none => n
    | some dst => n.routeDatagram e dst data draws

/-! ### Lifecycle -/

/-- `_deliver`. -/
def deliver (n : DatagramNetwork) (g : Datagram) : DatagramNetwork :=
  if (n.endpoint g.dest).closed then n
  else n.modify g.dest fun t =>
    {t.call (.datagramReceived g.data g.source) with received := t.received ++ [g]}

/-- Register a new endpoint. -/
def enter (n : DatagramNetwork) (localAddr : Addr) (t : SimDatagramTransport) : DatagramNetwork :=
  {n with
    endpoint := Function.update n.endpoint n.made t, made := n.made + 1
    bound := n.bound.set localAddr n.made}

/-- `create_datagram_endpoint`, on a resolved address; on one that is in use it raises. -/
def createEndpoint (n : DatagramNetwork) (localAddr : Addr) (remoteAddr : Option Addr)
    (owner : String) (protocol : Protocol) : DatagramNetwork :=
  if (n.bound.get? localAddr).isSome then n
  else
    (n.enter localAddr (.new localAddr remoteAddr owner protocol)).modify n.made fun t =>
      t.call .connectionMade

/-- Mark an endpoint dead. -/
def kill (n : DatagramNetwork) (e : EndpointId) : DatagramNetwork :=
  (n.modify e fun t => {t with closing := true, closed := true}).forget e

/-- `close` and `abort`; after the loop is closed only a destructor comes here. -/
def close (n : DatagramNetwork) (e : EndpointId) : DatagramNetwork :=
  if (n.endpoint e).closing then n
  else if n.loopClosed then n.kill e
  else {n.modify e fun t => {t with closing := true} with ready := n.ready ++ [e]}

def finalize (n : DatagramNetwork) (e : EndpointId) : DatagramNetwork :=
  if (n.endpoint e).closed then n
  else ((n.modify e fun t => {t with closed := true}).forget e).modify e fun t =>
    t.call .connectionLost

def setProtocol (n : DatagramNetwork) (e : EndpointId) (p : Protocol) : DatagramNetwork :=
  n.modify e fun t => {t with protocol := p}

/-- The part of `Host.crash` that concerns datagrams. -/
def crash (n : DatagramNetwork) (host : String) : DatagramNetwork :=
  (n.bound.entries.map Prod.snd).foldl
    (fun n e => if (n.endpoint e).owner = host then n.kill e else n) n

/-! ### Steps -/

/-- `relink` is any of `block`, `unblock`, `partition` and `heal`. -/
inductive Event where
  | create (localAddr : Addr) (remoteAddr : Option Addr) (owner : String) (protocol : Protocol)
  | sendto (e : EndpointId) (data : List UInt8) (addr : Option Addr) (draws : DatagramDraws)
  | close (e : EndpointId)
  | setProtocol (e : EndpointId) (p : Protocol)
  | crash (host : String)
  | relink (blocked : List (String × String))
  | shape (change : ShapeChange)
  | fault (change : FaultChange)
  | tick (t : ℚ)
  | finalize (e : EndpointId)
  | deliver (t : ℚ) (g : Datagram)
  | closeLoop

/-- A call while the loop is open. -/
def live (n after : DatagramNetwork) : Option DatagramNetwork :=
  if n.loopClosed then none else some after

/-- A call on an endpoint that was made. -/
def liveOn (n : DatagramNetwork) (e : EndpointId) (after : DatagramNetwork) :
    Option DatagramNetwork := if e < n.made then n.live after else none

/-- One move of the program or the loop. The loop serves any callback that is due, and
moves its clock when none is left, to another float and not past a timer. -/
def step (n : DatagramNetwork) : Event → Option DatagramNetwork
  | .create localAddr remoteAddr owner protocol =>
    n.live (n.createEndpoint localAddr remoteAddr owner protocol)
  | .sendto e data addr draws => n.liveOn e (n.sendto e data addr draws)
  | .close e => if e < n.made then some (n.close e) else none
  | .setProtocol e p => n.liveOn e (n.setProtocol e p)
  | .crash host => n.live (n.crash host)
  | .relink blocked => n.live {n with blocked := blocked}
  | .shape change => n.live {n with shaping := n.shaping.change change}
  | .fault change => n.live {n with faults := n.faults.change change}
  | .tick t =>
    if n.ready = [] ∧ n.rounding.Exact t ∧ n.now ≤ t ∧ ∀ p ∈ n.timers, t ≤ p.1 then
      n.live {n with now := t}
    else none
  | .finalize e =>
    if e ∈ n.ready then n.live ({n with ready := n.ready.erase e}.finalize e) else none
  | .deliver t g =>
    if (t, g) ∈ n.timers ∧ t ≤ n.now then
      n.live ({n with timers := n.timers.erase (t, g)}.deliver g)
    else none
  | .closeLoop => n.live {n with loopClosed := true, ready := [], timers := []}

theorem eq_of_live {n m after : DatagramNetwork} (h : n.live after = some m) : m = after := by
  unfold live at h
  split at h
  · cases h
  · exact (Option.some.inj h).symm

theorem eq_of_liveOn {n m after : DatagramNetwork} {e : EndpointId}
    (h : n.liveOn e after = some m) : e < n.made ∧ m = after := by
  unfold liveOn at h
  split at h
  next he => exact ⟨he, eq_of_live h⟩
  next => cases h

end DatagramNetwork

end Simloom
