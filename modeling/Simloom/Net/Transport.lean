import Simloom.Net.Channel
import Simloom.Theory.Dict

/-! The simulated network: `SimTransport` and the stream half of `SimNetwork`.

Endpoints are made in pairs. Everything the loop still owes the network is in `ready`
and `timers`; it may serve the first in any order, and of the second what is due.
The pump calls into its protocol, and the program may do anything there that it may
do elsewhere, so a pump is followed from one call to the next and `step` is one move
of the program, the loop or the pump. The delay draws are a parameter of the run. -/
namespace Simloom
open Theory

/-! ### Endpoints -/

/-- One endpoint of the pair that a `connected_pair` made. -/
structure EndId where
  pair : Nat
  server : Bool
deriving DecidableEq

def EndId.peer (e : EndId) : EndId := ⟨e.pair, !e.server⟩

@[simp] theorem EndId.peer_peer (e : EndId) : e.peer.peer = e := by
  cases e
  simp [peer]

theorem EndId.peer_ne (e : EndId) : e.peer ≠ e := by
  obtain ⟨_, server⟩ := e
  cases server <;> simp [peer]

@[simp] theorem EndId.peer_pair (e : EndId) : e.peer.pair = e.pair := rfl

/-- A protocol, by identity; a buffered one is an `asyncio.BufferedProtocol`. -/
structure Protocol where
  id : Nat
  buffered : Bool
deriving DecidableEq

/-- What is called on a protocol. -/
inductive Call where
  | connectionMade
  | dataReceived (data : List UInt8)
  | getBuffer (sizehint : Nat)
  | bufferUpdated (data : List UInt8)
  | eofReceived
  | connectionLost (error : Option String)
deriving DecidableEq

/-- The part of the stream that a call hands over. -/
def Call.marks : Call → List (Option UInt8)
  | .dataReceived data => data.map some
  | .bufferUpdated data => data.map some
  | .eofReceived => [none]
  | _ => []

/-- `_owner_name` of code that runs on no host. -/
def rootWorld : String := "<world>"

/-- An endpoint. The last five fields are not the source's: what `_send` took, the
arrival times it assigned, the times at which items entered the inbox, the items the
pump took, and the calls on protocols. -/
structure SimTransport where
  owner : String
  protocol : Protocol
  inbox : List Item
  pending : List Item
  held : List Item
  lastArrival : ℚ
  paused : Bool
  pumpScheduled : Bool
  closing : Bool
  closed : Bool
  accepted : List Item
  assigned : List ℚ
  entered : List ℚ
  popped : List Item
  calls : List (Protocol × Call)

def SimTransport.new (owner : String) (protocol : Protocol) : SimTransport :=
  ⟨owner, protocol, [], [], [], 0, false, false, false, false, [], [], [], [], []⟩

/-- Note a call. -/
def SimTransport.call (t : SimTransport) (p : Protocol) (c : Call) : SimTransport :=
  {t with calls := t.calls ++ [(p, c)]}

/-- The stream that was handed over. -/
def SimTransport.handed (t : SimTransport) : List (Option UInt8) :=
  t.calls.flatMap fun c => c.2.marks

/-! ### Shaping -/

/-- Latency and loss: global, per directed link, per node out and in. -/
structure Shaping where
  latency : ℚ × ℚ
  lossPercent : Nat
  linkLatency : Dict (String × String) (ℚ × ℚ)
  linkLoss : Dict (String × String) Nat
  nodeOutLatency : Dict String (ℚ × ℚ)
  nodeOutLoss : Dict String Nat
  nodeInLatency : Dict String (ℚ × ℚ)
  nodeInLoss : Dict String Nat

def Shaping.default : Shaping :=
  ⟨(1 / 2000, 1 / 50), 0, .empty, .empty, .empty, .empty, .empty, .empty⟩

/-- The most specific setting wins. -/
def effective {α : Type} (link : Dict (String × String) α) (out into : Dict String α) (default : α)
    (src dst : String) : α :=
  ((link.get? (src, dst)).or ((out.get? src).or (into.get? dst))).getD default

def Shaping.effectiveLatency (s : Shaping) : String → String → ℚ × ℚ :=
  effective s.linkLatency s.nodeOutLatency s.nodeInLatency s.latency

def Shaping.effectiveLoss (s : Shaping) : String → String → Nat :=
  effective s.linkLoss s.nodeOutLoss s.nodeInLoss s.lossPercent

/-- The setters. -/
inductive ShapeChange where
  | latency (range : ℚ × ℚ)
  | loss (percent : Int)
  | linkLatency (src dst : String) (range : ℚ × ℚ)
  | linkLoss (src dst : String) (percent : Int)
  | clogNodeOut (node : String) (latency : Option (ℚ × ℚ)) (loss : Option Int)
  | clogNodeIn (node : String) (latency : Option (ℚ × ℚ)) (loss : Option Int)

def validRange (range : ℚ × ℚ) : Bool := 0 ≤ range.1 ∧ range.1 ≤ range.2

def validPercent (percent : Int) : Bool := 0 ≤ percent ∧ percent ≤ 100

/-- A setter that refuses its argument raises and changes nothing; a clog that refuses
its loss has already set its latency. -/
def Shaping.change (s : Shaping) : ShapeChange → Shaping
  | .latency range => if validRange range then {s with latency := range} else s
  | .loss percent => if validPercent percent then {s with lossPercent := percent.toNat} else s
  | .linkLatency src dst range =>
    if validRange range then {s with linkLatency := s.linkLatency.set (src, dst) range} else s
  | .linkLoss src dst percent =>
    if validPercent percent then {s with linkLoss := s.linkLoss.set (src, dst) percent.toNat} else s
  | .clogNodeOut node latency loss =>
    if latency.all validRange then
      let s := match latency with
        | some range => {s with nodeOutLatency := s.nodeOutLatency.set node range}
        | none => s
      match loss with
      | some percent =>
        if validPercent percent then {s with nodeOutLoss := s.nodeOutLoss.set node percent.toNat}
        else s
      | none => s
    else s
  | .clogNodeIn node latency loss =>
    if latency.all validRange then
      let s := match latency with
        | some range => {s with nodeInLatency := s.nodeInLatency.set node range}
        | none => s
      match loss with
      | some percent =>
        if validPercent percent then {s with nodeInLoss := s.nodeInLoss.set node percent.toNat}
        else s
      | none => s
    else s

/-! ### The network -/

/-- What the loop is asked to call. -/
inductive Callback where
  | arrive (e : EndId)
  | pump (e : EndId)
  | finalize (e : EndId)
  | resetByPeer (e : EndId)
  | connectionLost (e : EndId) (p : Protocol) (error : Option String)
deriving DecidableEq

def Callback.at : Callback → EndId
  | .arrive e => e
  | .pump e => e
  | .finalize e => e
  | .resetByPeer e => e
  | .connectionLost e _ _ => e

/-- Where the loop is: between callbacks, or in a pump. A pump is in its own code
(`draining`, `filling`) or in a call on its protocol. -/
inductive Activity where
  | idle
  | draining (e : EndId) (p : Protocol)
  | receiving (e : EndId) (p : Protocol)
  | ending (e : EndId) (p : Protocol)
  | filling (e : EndId) (p : Protocol) (view : List UInt8)
  | buffering (e : EndId) (p : Protocol) (view : List UInt8)
  | updating (e : EndId) (p : Protocol) (view : List UInt8)
deriving DecidableEq

/-- The program runs: in a task or callback of its own, or in a call of the pump. -/
def Activity.inProgram : Activity → Bool
  | .draining _ _ => false
  | .filling _ _ _ => false
  | _ => true

/-- The live transports are listed in the order of their registration. The draws of
`_draw_delay` are given in advance; `drawn` counts them. -/
structure SimNetwork where
  transport : EndId → SimTransport
  pairs : Nat
  live : List EndId
  blocked : List (String × String)
  shaping : Shaping
  bytesSent : Nat
  chunksSent : Nat
  chunksDelayedByLoss : Nat
  draws : Nat → Fin 64 × Fin 100
  drawn : Nat
  now : ℚ
  ready : List Callback
  timers : List (ℚ × Callback)
  activity : Activity

namespace SimNetwork

def start (draws : Nat → Fin 64 × Fin 100) : SimNetwork :=
  ⟨fun _ => .new rootWorld ⟨0, false⟩, 0, [], [], .default, 0, 0, 0, draws, 0, 0, [], [], .idle⟩

def modify (n : SimNetwork) (e : EndId) (f : SimTransport → SimTransport) : SimNetwork :=
  {n with transport := Function.update n.transport e (f (n.transport e))}

def callSoon (n : SimNetwork) (cb : Callback) : SimNetwork := {n with ready := n.ready ++ [cb]}

def callAt (n : SimNetwork) (t : ℚ) (cb : Callback) : SimNetwork :=
  {n with timers := n.timers ++ [(t, cb)]}

def forget (n : SimNetwork) (e : EndId) : SimNetwork := {n with live := n.live.erase e}

def isBlocked (n : SimNetwork) (src dst : String) : Bool := (src, dst) ∈ n.blocked

/-- The direction from an endpoint to its peer is blocked. -/
def isBlockedFrom (n : SimNetwork) (e : EndId) : Bool :=
  n.isBlocked (n.transport e).owner (n.transport e.peer).owner

/-! ### Sending -/

/-- `_draw_delay`: a lost segment costs a retransmission round trip. -/
def drawDelay (n : SimNetwork) (src dst : String) : ℚ × SimNetwork :=
  let range := n.shaping.effectiveLatency src dst
  let draw := n.draws n.drawn
  let delay := range.1 + (range.2 - range.1) * ((draw.1.val : ℚ) / 63)
  let n := {n with drawn := n.drawn + 1}
  if draw.2.val < n.shaping.effectiveLoss src dst then
    (delay + 3 * range.2, {n with chunksDelayedByLoss := n.chunksDelayedByLoss + 1})
  else (delay, n)

/-- Put an item under way: arrival times never decrease. -/
def transmit (n : SimNetwork) (e : EndId) (item : Item) : SimNetwork :=
  let drawn := n.drawDelay (n.transport e).owner (n.transport e.peer).owner
  let arrival := max (n.now + drawn.1) (n.transport e.peer).lastArrival
  (drawn.2.modify e.peer fun peer =>
    {peer with
      lastArrival := arrival, pending := peer.pending ++ [item]
      assigned := peer.assigned ++ [arrival]}).callAt arrival (.arrive e.peer)

/-- `_send`: behind a partition items are held, in order. -/
def send (n : SimNetwork) (e : EndId) (item : Item) : SimNetwork :=
  let n := n.modify e fun t => {t with accepted := t.accepted ++ [item]}
  if (n.transport e).held ≠ [] ∨ n.isBlockedFrom e then
    n.modify e fun t => {t with held := t.held ++ [item]}
  else n.transmit e item

/-- The loop of `_flush_held` over what is held. -/
def flush (e : EndId) : List Item → SimNetwork → SimNetwork
  | [], n => n
  | item :: rest, n =>
    if n.isBlockedFrom e then n
    else flush e rest ((n.modify e fun t => {t with held := rest}).transmit e item)

def flushHeld (n : SimNetwork) (e : EndId) : SimNetwork :=
  if (n.transport e).closed then n else flush e (n.transport e).held n

def countSend (n : SimNetwork) (size : Nat) : SimNetwork :=
  {n with bytesSent := n.bytesSent + size, chunksSent := n.chunksSent + 1}

def write (n : SimNetwork) (e : EndId) (data : List UInt8) : SimNetwork :=
  if (n.transport e).closing ∨ data = [] then n
  else (n.countSend data.length).send e (.data data)

def writeEof (n : SimNetwork) (e : EndId) : SimNetwork :=
  if (n.transport e).closing then n else n.send e .eof

/-! ### Receiving -/

def schedulePump (n : SimNetwork) (e : EndId) : SimNetwork :=
  if (n.transport e).pumpScheduled = false ∧ (n.transport e).closed = false then
    (n.modify e fun t => {t with pumpScheduled := true}).callSoon (.pump e)
  else n

def arrive (n : SimNetwork) (e : EndId) : SimNetwork :=
  if (n.transport e).closed then n
  else
    let n := match (n.transport e).pending with
      | [] => n
      | item :: rest => n.modify e fun t =>
        {t with pending := rest, inbox := t.inbox ++ [item], entered := t.entered ++ [n.now]}
    n.schedulePump e

/-- `_pump` looks its protocol up once. -/
def pump (n : SimNetwork) (e : EndId) : SimNetwork :=
  let n := n.modify e fun t => {t with pumpScheduled := false}
  {n with activity := .draining e (n.transport e).protocol}

def pauseReading (n : SimNetwork) (e : EndId) : SimNetwork :=
  n.modify e fun t => {t with paused := true}

def resumeReading (n : SimNetwork) (e : EndId) : SimNetwork :=
  (n.modify e fun t => {t with paused := false}).schedulePump e

/-! ### Lifecycle -/

def close (n : SimNetwork) (e : EndId) : SimNetwork :=
  if (n.transport e).closing then n
  else
    let n := n.modify e fun t => {t with closing := true}
    let n := if (n.transport e.peer).closing then n else n.send e .eof
    n.callSoon (.finalize e)

/-- Mark an endpoint dead. -/
def kill (n : SimNetwork) (e : EndId) : SimNetwork :=
  (n.modify e fun t => {t with closing := true, closed := true}).forget e

def forceClose (n : SimNetwork) (e : EndId) (error : Option String) : SimNetwork :=
  if (n.transport e).closed then n
  else (n.kill e).callSoon (.connectionLost e (n.transport e).protocol error)

def connectionLost (n : SimNetwork) (e : EndId) (p : Protocol) (error : Option String) :
    SimNetwork :=
  n.modify e fun t => t.call p (.connectionLost error)

def finalize (n : SimNetwork) (e : EndId) : SimNetwork :=
  if (n.transport e).closed then n
  else ((n.modify e fun t => {t with closed := true}).forget e).connectionLost e
    (n.transport e).protocol none

def dropOnCrash (n : SimNetwork) (e : EndId) : SimNetwork :=
  let n := n.kill e
  if (n.transport e.peer).closed then n else n.callSoon (.resetByPeer e.peer)

def resetByPeer (n : SimNetwork) (e : EndId) : SimNetwork :=
  if (n.transport e).closed then n
  else (n.kill e).connectionLost e (n.transport e).protocol (some "simulated peer crashed")

def setProtocol (n : SimNetwork) (e : EndId) (p : Protocol) : SimNetwork :=
  n.modify e fun t => {t with protocol := p}

/-- `connected_pair`: the server's protocol is told first. -/
def connectedPair (n : SimNetwork) (clientOwner serverOwner : String)
    (client server : Protocol) : SimNetwork :=
  let c : EndId := ⟨n.pairs, false⟩
  let s : EndId := ⟨n.pairs, true⟩
  let n := {n with pairs := n.pairs + 1, live := n.live ++ [c, s]}
  let n := n.modify c fun _ => .new clientOwner client
  let n := n.modify s fun _ => .new serverOwner server
  let n := n.modify s fun t => t.call server .connectionMade
  n.modify c fun t => t.call client .connectionMade

/-! ### Faults -/

def block (n : SimNetwork) (src dst : String) : SimNetwork :=
  {n with blocked := n.blocked.insert (src, dst)}

/-- `_release`, without the connects that wait for a heal. -/
def release (n : SimNetwork) : SimNetwork := n.live.foldl flushHeld n

def unblock (n : SimNetwork) (src dst : String) : SimNetwork :=
  {n with blocked := n.blocked.filter (· ≠ (src, dst))}.release

def partition (n : SimNetwork) (groupA groupB : List String) : SimNetwork :=
  (groupA.product groupB).foldl (fun n p => (n.block p.1 p.2).block p.2 p.1) n

def heal (n : SimNetwork) : SimNetwork := {n with blocked := []}.release

/-- `{x, y} == {a, b}`. -/
def samePair (x y a b : String) : Bool := (x = a ∧ y = b) ∨ (x = b ∧ y = a)

def resetConnections (n : SimNetwork) (a b : String) : SimNetwork :=
  n.live.foldl (fun n e =>
    if samePair (n.transport e).owner (n.transport e.peer).owner a b then
      n.callSoon (.resetByPeer e)
    else n) n

/-- The part of `Host.crash` that concerns streams. -/
def crash (n : SimNetwork) (host : String) : SimNetwork :=
  n.live.foldl (fun n e => if (n.transport e).owner = host then n.dropOnCrash e else n) n

/-! ### The pump, call by call -/

/-- The head of the pump's loop. -/
def turn (n : SimNetwork) (e : EndId) (p : Protocol) : SimNetwork :=
  match (n.transport e).inbox with
  | [] => {n with activity := .idle}
  | item :: rest =>
    if (n.transport e).paused = false ∧ (n.transport e).closed = false then
      let n := n.modify e fun t => {t with inbox := rest, popped := t.popped ++ [item]}
      match item, p.buffered with
      | .eof, _ => {n.modify e fun t => t.call p .eofReceived with activity := .ending e p}
      | .data data, true => {n with activity := .filling e p data}
      | .data data, false =>
        {n.modify e fun t => t.call p (.dataReceived data) with activity := .receiving e p}
    else {n with activity := .idle}

/-- The head of `_deliver`'s loop. -/
def fill (n : SimNetwork) (e : EndId) (p : Protocol) (view : List UInt8) : SimNetwork :=
  if view ≠ [] ∧ (n.transport e).closed = false then
    {n.modify e fun t => t.call p (.getBuffer view.length) with activity := .buffering e p view}
  else {n with activity := .draining e p}

/-- `get_buffer` returned `size` bytes; an empty buffer raises. -/
def buffer (n : SimNetwork) (e : EndId) (p : Protocol) (view : List UInt8) (size : Nat) :
    SimNetwork :=
  let count := min size view.length
  if 0 < count then
    {n.modify e fun t => t.call p (.bufferUpdated (view.take count)) with
      activity := .updating e p (view.drop count)}
  else {n with activity := .idle}

/-- `eof_received` returned. -/
def eofReturned (n : SimNetwork) (e : EndId) (p : Protocol) (keepOpen : Bool) : SimNetwork :=
  let n := if keepOpen then n else n.close e
  {n with activity := .draining e p}

/-! ### Steps -/

def callback (n : SimNetwork) : Callback → SimNetwork
  | .arrive e => n.arrive e
  | .pump e => n.pump e
  | .finalize e => n.finalize e
  | .resetByPeer e => n.resetByPeer e
  | .connectionLost e p error => n.connectionLost e p error

inductive Event where
  | connect (clientOwner serverOwner : String) (client server : Protocol)
  | write (e : EndId) (data : List UInt8)
  | writeEof (e : EndId)
  | close (e : EndId)
  | forceClose (e : EndId) (error : Option String)
  | pauseReading (e : EndId)
  | resumeReading (e : EndId)
  | setProtocol (e : EndId) (p : Protocol)
  | block (src dst : String)
  | unblock (src dst : String)
  | partition (groupA groupB : List String)
  | heal
  | resetConnections (a b : String)
  | crash (host : String)
  | shape (change : ShapeChange)
  | tick (t : ℚ)
  | ready (cb : Callback)
  | timer (t : ℚ) (cb : Callback)
  | advance
  | returned
  | eofReturned (keepOpen : Bool)
  | bufferReturned (size : Nat)
  | raised

/-- A call of the program on the network. -/
def call (n : SimNetwork) (after : SimNetwork) : Option SimNetwork :=
  if n.activity.inProgram then some after else none

/-- A call of the program on an endpoint. -/
def callOn (n : SimNetwork) (e : EndId) (after : SimNetwork) : Option SimNetwork :=
  if n.activity.inProgram ∧ e.pair < n.pairs then some after else none

/-- The pump goes on by itself, up to its next call. -/
def advance (n : SimNetwork) : Option SimNetwork :=
  match n.activity with
  | .draining e p => some (n.turn e p)
  | .filling e p view => some (n.fill e p view)
  | _ => none

/-- `data_received` or `buffer_updated` returned. -/
def returned (n : SimNetwork) : Option SimNetwork :=
  match n.activity with
  | .receiving e p => some {n with activity := .draining e p}
  | .updating e p view => some {n with activity := .filling e p view}
  | _ => none

/-- A call of the pump raised: the exception goes to the loop's handler. -/
def raised (n : SimNetwork) : Option SimNetwork :=
  match n.activity with
  | .receiving _ _ | .ending _ _ | .buffering _ _ _ | .updating _ _ _ => some {n with activity := .idle}
  | _ => none

def step (n : SimNetwork) : Event → Option SimNetwork
  | .connect clientOwner serverOwner client server =>
    n.call (n.connectedPair clientOwner serverOwner client server)
  | .write e data => n.callOn e (n.write e data)
  | .writeEof e => n.callOn e (n.writeEof e)
  | .close e => n.callOn e (n.close e)
  | .forceClose e error => n.callOn e (n.forceClose e error)
  | .pauseReading e => n.callOn e (n.pauseReading e)
  | .resumeReading e => n.callOn e (n.resumeReading e)
  | .setProtocol e p => n.callOn e (n.setProtocol e p)
  | .block src dst => n.call (n.block src dst)
  | .unblock src dst => n.call (n.unblock src dst)
  | .partition groupA groupB => n.call (n.partition groupA groupB)
  | .heal => n.call n.heal
  | .resetConnections a b => n.call (n.resetConnections a b)
  | .crash host => n.call (n.crash host)
  | .shape change => n.call {n with shaping := n.shaping.change change}
  | .tick t => if n.activity = .idle ∧ n.now ≤ t then some {n with now := t} else none
  | .ready cb =>
    if n.activity = .idle ∧ cb ∈ n.ready then some ({n with ready := n.ready.erase cb}.callback cb)
    else none
  | .timer t cb =>
    if n.activity = .idle ∧ (t, cb) ∈ n.timers ∧ t ≤ n.now then
      some ({n with timers := n.timers.erase (t, cb)}.callback cb)
    else none
  | .advance => n.advance
  | .returned => n.returned
  | .eofReturned keepOpen =>
    match n.activity with
    | .ending e p => some (n.eofReturned e p keepOpen)
    | _ => none
  | .bufferReturned size =>
    match n.activity with
    | .buffering e p view => some (n.buffer e p view size)
    | _ => none
  | .raised => n.raised

end SimNetwork

end Simloom
