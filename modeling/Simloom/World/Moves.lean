import Simloom.World.Machine

/-! What each event does.

Here the transition system is taken apart, once: `Does` lists the ways an act can turn out and
`Moves` those of an event, each with what held before it and the world that it leaves. What is
shown of all steps is shown by cases on these (`act_does`, `step_moves`). -/
namespace Simloom
namespace World

/-- Looking a listener up again finds none that serves, stashes the pairing, or begins it. -/
inductive Reaches (w : World) (dial : Dial) : World → Prop where
  | none : Reaches w dial w
  | stashed (sock : SockId) (id : ServerId) (h : dial.sock = some sock) :
    Reaches w dial {w with
      pendingSocks := (sock, id, dial.owner) :: w.pendingSocks.filter fun e => e.1 ≠ sock}
  | pairs (id : ServerId) (hsock : dial.sock = Option.none)
    (hlistener : w.listener dial.address = some id)
    (hserving : (w.servers[id]?).any (!·.closed) = true) :
    Reaches w dial (w.push (.pairing id dial.owner))

theorem reachListener_reaches (w : World) (dial : Dial) :
    Reaches w dial (w.reachListener dial) := by
  unfold reachListener
  split
  · exact .none
  next id hid =>
    split
    next hserving =>
      unfold reach
      split
      next sock hsock => exact .stashed sock id hsock
      next hsock => exact .pairs id hsock hid hserving
    next => exact .none

/-- How an act of code in the context of `owner` turns out. What is refused leaves the world as
it is. -/
inductive Does (w : World) (owner : Owner) : Act → World → Prop where
  | refused (a : Act) (hstack : ∀ address sock, a = .dial address sock →
      ∃ host task, w.stack = [.code host (some task)]) : Does w owner a w
  | createTask : Does w owner .createTask (w.createTask owner owner)
  | calls (host : HostId) (factory : FactoryId) (hup : (w.hosts host).crashed = false) :
    Does w owner (.spawn host (some factory)) (w.push (.spawning host factory))
  | spawns (host : HostId) (hup : (w.hosts host).crashed = false) :
    Does w owner (.spawn host none) ((w.enlist host none).spawnTask owner host)
  | crash (host : HostId) (hup : (w.hosts host).crashed = false) :
    Does w owner (.crash host) (w.crash host)
  | restart (host : HostId) (hdown : (w.hosts host).crashed = true)
    (hall : (w.hosts host).entries.all Option.isSome = true) :
    Does w owner (.restart host)
      ((w.setHost host {w.hosts host with
        crashed := false, generation := (w.hosts host).generation + 1, entries := []}).push
          (.restarting host ((w.hosts host).entries.filterMap id)))
  | listen (address : Address) (hfree : ∀ s ∈ w.servers, s.listed = true → s.address ≠ address) :
    Does w owner (.listen address) {w with servers := w.servers ++ [⟨address, owner, true, false⟩]}
  | closeServer (id : ServerId) : Does w owner (.closeServer id) (w.closeServer id)
  | waits (address : Address) (sock : Option SockId) (id : ServerId) (host : Owner) (task : TaskId)
    (hstack : w.stack = [.code host (some task)]) :
    Does w owner (.dial address sock)
      {w with stack := [], waiting := (task, ⟨address, sock, owner, id⟩) :: w.waiting}
  | dials (address : Address) (sock : Option SockId) (id : ServerId) (host : Owner) (task : TaskId)
    (hstack : w.stack = [.code host (some task)]) (hid : w.listener address = some id)
    (hclear : w.isCut owner (w.ownerOf id) = false) (w' : World)
    (h : Reaches w ⟨address, sock, owner, id⟩ w') : Does w owner (.dial address sock) w'
  | claims (sock : SockId) (id : ServerId) (client : Owner) :
    Does w owner (.connectSock sock)
      (push {w with pendingSocks := w.pendingSocks.filter fun e => e.1 ≠ sock} (.pairing id client))
  | openDatagram (address : Address) : Does w owner (.openDatagram address)
      (push {w with datagrams := w.datagrams ++ [⟨address, owner, false, false⟩]} (.code owner none))
  | closeDatagram (id : DatagramId) : Does w owner (.closeDatagram id)
      {w with datagrams := w.datagrams.modify id fun d => {d with closing := true}}
  | closeTransport (id : TransportId) : Does w owner (.closeTransport id) (w.closeTransport id)
  | forceClose (id : TransportId) : Does w owner (.forceClose id) (w.forceClose id)
  | resetConnections (a b : Owner) :
    Does w owner (.resetConnections a b) (w.resetConnections a b)
  | block (src dst : Owner) :
    Does w owner (.block src dst) {w with blocked := (src, dst) :: w.blocked}
  | unblock (src dst : Owner) : Does w owner (.unblock src dst)
      {w with blocked := w.blocked.filter (· ≠ (src, dst))}
  | heal : Does w owner .heal {w with blocked := []}

variable {w w' : World} {owner : Owner}

theorem act_does {a : Act} (h : w.act owner a = some w') : Does w owner a w' := by
  cases a with
  | createTask => exact Option.some.inj h ▸ .createTask
  | spawn host factory =>
    dsimp only [act] at h
    split at h
    · exact Option.some.inj h ▸ .refused _ nofun
    next hup =>
      have hup : (w.hosts host).crashed = false := Bool.eq_false_iff.mpr hup
      split at h
      next factory => exact Option.some.inj h ▸ .calls host factory hup
      next => exact Option.some.inj h ▸ .spawns host hup
  | crash host =>
    obtain rfl := Option.some.inj h
    cases hup : (w.hosts host).crashed with
    | true =>
      have hsame : w.crash host = w := by
        unfold crash
        rw [if_pos hup]
      exact hsame.symm ▸ .refused _ nofun
    | false => exact .crash host hup
  | restart host =>
    obtain rfl := Option.some.inj h
    unfold restart
    dsimp only
    split
    next hdown => exact .restart host (Bool.and_eq_true_iff.mp hdown).1 (Bool.and_eq_true_iff.mp hdown).2
    next => exact .refused _ nofun
  | listen address =>
    dsimp only [act] at h
    split at h
    · exact Option.some.inj h ▸ .refused _ nofun
    next hfree =>
      exact Option.some.inj h ▸ .listen address fun s hs hl ha =>
        hfree (List.any_eq_true.mpr ⟨s, hs, by simp [hl, ha]⟩)
  | closeServer id => exact Option.some.inj h ▸ .closeServer id
  | dial address sock =>
    dsimp only [act] at h
    split at h
    next host task hstack =>
      split at h
      · exact Option.some.inj h ▸ .refused _ fun _ _ _ => ⟨host, task, hstack⟩
      next id hid =>
        split at h
        · exact Option.some.inj h ▸ .waits address sock id host task hstack
        next hclear =>
          exact .dials address sock id host task hstack hid (Bool.eq_false_iff.mpr hclear) _
            (Option.some.inj h ▸ reachListener_reaches w _)
    next => cases h
  | connectSock sock =>
    dsimp only [act] at h
    split at h
    · exact Option.some.inj h ▸ .refused _ nofun
    next id client _ => exact Option.some.inj h ▸ .claims sock id client
  | openDatagram address =>
    dsimp only [act] at h
    split at h
    · exact Option.some.inj h ▸ .refused _ nofun
    · exact Option.some.inj h ▸ .openDatagram address
  | closeDatagram id => exact Option.some.inj h ▸ .closeDatagram id
  | closeTransport id => exact Option.some.inj h ▸ .closeTransport id
  | forceClose id => exact Option.some.inj h ▸ .forceClose id
  | resetConnections a b => exact Option.some.inj h ▸ .resetConnections a b
  | block src dst => exact Option.some.inj h ▸ .block src dst
  | unblock src dst => exact Option.some.inj h ▸ .unblock src dst
  | heal => exact Option.some.inj h ▸ .heal

/-- How an event turns out. -/
inductive Moves (w : World) : Event → World → Prop where
  | pick (id : TaskId) : Moves w (.pick id) {w with hand := some id}
  | collect (hidle : w.stack = []) : Moves w .collect (w.push (.code none none))
  | root (hidle : w.stack = []) : Moves w .root (w.push (.code none none))
  | run (id : TaskId) (task : Task) (hidle : w.stack = []) (hhand : w.hand = some id)
    (htask : w.tasks[id]? = some task) :
    Moves w .run {w with hand := none, stack := [.code task.host (some id)]}
  | resume (id : TaskId) (task : Task) (dial : Dial) (hidle : w.stack = [])
    (hhand : w.hand = some id) (htask : w.tasks[id]? = some task) :
    Moves w .run {w with
      hand := none
      waiting := w.waiting.filter fun e => e.1 ≠ id
      stack := [.dialing dial, .code task.host (some id)]}
  | onTransport (callback : Callback) (id : TransportId) (f : Transport → Option Transport)
    (t t' : Transport) (hidle : w.stack = []) (hf : callback.onTransport = some (id, f))
    (ht : w.transports[id]? = some t) (ht' : f t = some t') :
    Moves w (.callback callback)
      (push {w with transports := w.transports.set id t'} (.code t.owner none))
  | onDatagram (callback : Callback) (id : DatagramId) (f : Datagram → Option Datagram)
    (d d' : Datagram) (hidle : w.stack = []) (hf : callback.onDatagram = some (id, f))
    (hd : w.datagrams[id]? = some d) (hd' : f d = some d') :
    Moves w (.callback callback)
      (push {w with datagrams := w.datagrams.set id d'} (.code d.owner none))
  | act (a : Act) (owner : Owner) (w' : World) (hrunning : w.running = some owner)
    (h : Does w owner a w') : Moves w (.act a) w'
  | leave (finished : Bool) (host : Owner) (rest : List Frame)
    (hstack : w.stack = .code host none :: rest) :
    Moves w (.leave finished) {w with stack := rest}
  | finish (finished : Bool) (host : Owner) (id : TaskId) (rest : List Frame)
    (hstack : w.stack = .code host (some id) :: rest) :
    Moves w (.leave finished) {w with
      stack := rest, tasks := w.tasks.modify id fun t => {t with done := t.done || finished}}
  | raise (rest : List Frame) (hunwind : unwind w.stack = some rest) :
    Moves w .raise {w with stack := rest}
  | spawned (host : HostId) (factory : FactoryId) (rest : List Frame) (owner : Owner)
    (hstack : w.stack = .spawning host factory :: rest) :
    Moves w .spawned
      (spawnTask (enlist {w with stack := rest} host (some factory)) owner host)
  | restarted (host : HostId) (more : List FactoryId) (rest : List Frame)
    (hstack : w.stack = .restarting host more :: rest)
    (hover : more = [] ∨ (w.hosts host).crashed = true) : Moves w .respawn {w with stack := rest}
  | respawn (host : HostId) (factory : FactoryId) (more : List FactoryId) (rest : List Frame)
    (hstack : w.stack = .restarting host (factory :: more) :: rest) :
    Moves w .respawn {w with stack := .spawning host factory :: .restarting host more :: rest}
  | waits (dial : Dial) (host : Owner) (task : TaskId) (rest : List Frame)
    (hstack : w.stack = .dialing dial :: .code host (some task) :: rest) :
    Moves w .redial {w with stack := rest, waiting := (task, dial) :: w.waiting}
  | redial (dial : Dial) (host : Owner) (task : TaskId) (rest : List Frame)
    (hstack : w.stack = .dialing dial :: .code host (some task) :: rest)
    (hclear : w.isCut dial.owner (w.ownerOf dial.server) = false) (w' : World)
    (h : Reaches {w with stack := .code host (some task) :: rest} dial w') : Moves w .redial w'
  | paired (id : ServerId) (client : Owner) (rest : List Frame)
    (hstack : w.stack = .pairing id client :: rest) : Moves w .paired (w.pair id client rest)
  | greet (client : TransportId) (t : Transport) (rest : List Frame)
    (hstack : w.stack = .greeting client :: rest) (ht : w.transports[client]? = some t) :
    Moves w .greet {w with stack := .code t.owner none :: rest}

theorem callback_moves {callback : Callback} (hidle : w.stack = [])
    (h : w.callback callback = some w') : Moves w (.callback callback) w' := by
  unfold World.callback at h
  split at h
  next id f hf =>
    obtain ⟨t, ht, h⟩ := Option.bind_eq_some_iff.mp h
    obtain ⟨t', ht', h⟩ := Option.bind_eq_some_iff.mp h
    exact Option.some.inj h ▸ .onTransport callback id f t t' hidle hf ht ht'
  next id f _ hf =>
    obtain ⟨d, hd, h⟩ := Option.bind_eq_some_iff.mp h
    obtain ⟨d', hd', h⟩ := Option.bind_eq_some_iff.mp h
    exact Option.some.inj h ▸ .onDatagram callback id f d d' hidle hf hd hd'
  next => cases h

theorem idle_of {b : Bool} (h : (w.stack.isEmpty && b) = true) : w.stack = [] :=
  List.isEmpty_iff.mp (Bool.and_eq_true_iff.mp h).1

/-- **Every step is one of the moves.** -/
theorem step_moves {e : Event} (h : w.step e = some w') : Moves w e w' := by
  cases e with
  | pick id =>
    obtain ⟨_, h⟩ := Option.ite_none_right_eq_some.mp h
    exact Option.some.inj h ▸ .pick id
  | collect =>
    obtain ⟨hidle, h⟩ := Option.ite_none_right_eq_some.mp h
    exact Option.some.inj h ▸ .collect (List.isEmpty_iff.mp hidle)
  | root =>
    obtain ⟨hidle, h⟩ := Option.ite_none_right_eq_some.mp h
    exact Option.some.inj h ▸ .root (idle_of hidle)
  | run =>
    dsimp only [step] at h
    split at h
    next id hidle hhand =>
      obtain ⟨task, htask, rfl⟩ := Option.map_eq_some_iff.mp h
      unfold runTask
      dsimp only
      split
      · exact .run id task hidle hhand htask
      next dial _ => exact .resume id task dial hidle hhand htask
    next => cases h
  | callback callback =>
    obtain ⟨hidle, h⟩ := Option.ite_none_right_eq_some.mp h
    exact callback_moves (idle_of hidle) h
  | act a =>
    obtain ⟨owner, hrunning, hact⟩ := Option.bind_eq_some_iff.mp h
    exact .act a owner _ hrunning (act_does hact)
  | leave finished =>
    dsimp only [step] at h
    split at h
    next host id rest hstack => exact Option.some.inj h ▸ .finish finished host id rest hstack
    next host rest hstack => exact Option.some.inj h ▸ .leave finished host rest hstack
    next => cases h
  | raise =>
    obtain ⟨rest, hunwind, rfl⟩ := Option.map_eq_some_iff.mp h
    exact .raise rest hunwind
  | spawned =>
    dsimp only [step] at h
    split at h
    next host factory rest hstack =>
      obtain ⟨owner, _, rfl⟩ := Option.map_eq_some_iff.mp h
      exact .spawned host factory rest owner hstack
    next => cases h
  | respawn =>
    dsimp only [step] at h
    split at h
    next host rest hstack => exact Option.some.inj h ▸ .restarted host [] rest hstack (.inl rfl)
    next host factory more rest hstack =>
      split at h
      next hdown => exact Option.some.inj h ▸ .restarted host _ rest hstack (.inr hdown)
      next => exact Option.some.inj h ▸ .respawn host factory more rest hstack
    next => cases h
  | redial =>
    dsimp only [step] at h
    split at h
    next dial host task rest hstack =>
      split at h
      · exact Option.some.inj h ▸ .waits dial host task rest hstack
      next hclear =>
        exact .redial dial host task rest hstack (Bool.eq_false_iff.mpr hclear) _
          (Option.some.inj h ▸ reachListener_reaches _ dial)
    next => cases h
  | paired =>
    dsimp only [step] at h
    split at h
    next id client rest hstack => exact Option.some.inj h ▸ .paired id client rest hstack
    next => cases h
  | greet =>
    dsimp only [step] at h
    split at h
    next client rest hstack =>
      obtain ⟨t, ht, rfl⟩ := Option.map_eq_some_iff.mp h
      exact .greet client t rest hstack ht
    next => cases h

end World

end Simloom
